/-
# `Jccl.Dbuf.Memory` — when `dbuf_push` fails for lack of memory only

A push that has to grow the buffer asks for twice the capacity, and if that is
refused for just the bytes that it needs.  It has to grow when `new_top > n`:
where the capacity should be, the code has the number of bytes that are
pushed.  So it asks for memory that it does not need, and when this is refused
`dbuf_grow_to` will not take the new top, which is below the capacity; and
from an empty buffer it does not grow, however much is pushed.  Nor is one
doubling always enough.

An allocator is a function here that says for every size whether it is
granted.
-/
import Jccl.Dbuf.Blocks

namespace Jccl

open Block

/-- The buffer of some run, from its initial size on. -/
inductive DbufReached : Dbuf → Prop
  | init (initialN : BitVec 64) : DbufReached (dbufInit initialN)
  | call {buf buf' call answers answers' status} : DbufReached buf →
      (dbufCall call (some buf)).run answers = .ok ((status, some buf'), answers') →
      DbufReached buf'

/-- The answers to the requests of a push: for what `dbuf_grow` asks for, and
for the new top. -/
def pushAnswers (grants : Nat → Bool) (buf : Dbuf) (s : Bytes) : List Bool :=
  [grants (dbufNewN buf), grants (buf.top + s.bytes.length)]

/-- The call returns the offset, and the bytes are on top of the others. -/
def PushSucceeds (grants : Nat → Bool) (buf : Dbuf) (s : Bytes) : Prop :=
  ∃ buf' answers', (dbufPush (some buf) (some s)).run (pushAnswers grants buf s) =
    .ok (((buf.top : Int), some buf'), answers') ∧ buf'.top = buf.top + s.bytes.length

/-- With room for the bytes no allocator makes the push fail; without room none
does that would grant the size that is needed. -/
structure OnlyLacksMemory (buf : Dbuf) (s : Bytes) : Prop where
  room : buf.top + s.bytes.length ≤ buf.n → ∀ grants, PushSucceeds grants buf s
  noRoom : buf.n < buf.top + s.bytes.length → ∀ grants : Nat → Bool,
    grants (buf.top + s.bytes.length) = true → buf.top + s.bytes.length ≤ PTRDIFF_MAX →
    PushSucceeds grants buf s

/-- There is room in an empty buffer, or there is none and the bytes are behind
others and fit into twice the capacity, or are too many for any block. -/
def GrowsEnough (buf : Dbuf) (s : Bytes) : Prop :=
  if buf.top + s.bytes.length ≤ buf.n then
    buf.top = 0
  else
    PTRDIFF_MAX < buf.top + s.bytes.length ∨
      0 < buf.top ∧ buf.top + s.bytes.length ≤ buf.n * GROW_FACTOR

/-! ## The buffers of a run -/

section Freed

variable {buf buf' : Dbuf} {answers answers' : List Bool} {status : Int} (hb : buf.b = .freed)

include hb

/-- A block that was freed cannot be grown. -/
theorem dbufGrowTo_freed (newN : Nat) (answers : List Bool) :
    (dbufGrowTo (some buf) newN).run answers = .ok ((EINVAL, some buf), answers) ∨
      (dbufGrowTo (some buf) newN).run answers = .error .dangling := by
  by_cases hsmall : newN < buf.n
  · exact .inl (dbufGrowTo_small hsmall)
  · right
    simp only [dbufGrowTo, if_neg hsmall, StateT.run_bind, hb]
    rfl

theorem dbufMakeRoom_freed (n newTop : Nat) (answers : List Bool) :
    (∃ retval, (retval = EINVAL ∨ retval = 0) ∧
        (dbufMakeRoom buf n newTop).run answers = .ok ((retval, some buf), answers)) ∨
      (dbufMakeRoom buf n newTop).run answers = .error .dangling := by
  by_cases hcond : buf.b = .null ∨ newTop > n
  · simp only [dbufMakeRoom, if_pos hcond, dbufGrow, StateT.run_bind]
    have hne : EINVAL ≠ 0 := by decide
    rcases dbufGrowTo_freed hb (dbufNewN buf) answers with h | h
    · rw [h, Outcome.ok_bind]
      show (∃ retval, _ ∧ (if EINVAL ≠ 0 then dbufGrowTo (some buf) newTop else _).run answers = _) ∨
        (if EINVAL ≠ 0 then dbufGrowTo (some buf) newTop else _).run answers = _
      rw [if_pos hne]
      exact (dbufGrowTo_freed hb newTop answers).imp_left fun h => ⟨_, .inl rfl, h⟩
    · rw [h]
      exact .inr rfl
  · rw [dbufMakeRoom, if_neg hcond]
    exact .inl ⟨0, .inr rfl, rfl⟩

/-- Nothing is pushed, not even no bytes. -/
theorem dbufPush_freed {s : Option Bytes}
    (hrun : (dbufPush (some buf) s).run answers = .ok ((status, some buf'), answers')) :
    buf' = buf ∧ status = -EINVAL := by
  cases s with
  | none =>
      cases hrun
      exact ⟨rfl, rfl⟩
  | some s =>
      rw [dbufPush] at hrun
      rcases dbufMakeRoom_freed hb s.bytes.length ((buf.top + s.bytes.length) % 2 ^ 64) answers
        with ⟨retval, hstatus, h⟩ | h
      · obtain ⟨⟨r, grown⟩, t, hroom, hrest⟩ := AllocM.bind_eq_ok.mp hrun
        cases h.symm.trans hroom
        dsimp only at hrest
        by_cases hretval : retval ≠ 0
        · rw [if_pos hretval] at hrest
          cases hrest
          exact ⟨rfl, congrArg Neg.neg (hstatus.resolve_right hretval)⟩
        · -- there is nothing to write to
          rw [if_neg hretval] at hrest
          obtain ⟨old, hold, hrest⟩ := AllocM.lift_bind_eq_ok.mp hrest
          cases hold
          obtain ⟨-, -, hrest⟩ := AllocM.lift_bind_eq_ok.mp hrest
          obtain ⟨b, hwrite, -⟩ := AllocM.lift_bind_eq_ok.mp hrest
          rw [hb] at hwrite
          cases hwrite
      · obtain ⟨p, t, hroom, -⟩ := AllocM.bind_eq_ok.mp hrun
        cases h.symm.trans hroom

theorem dbufPop_freed {s : Bool} {n : Nat} {bytes : List (Option UInt8)}
    (hrun : dbufPop (some buf) s n = .ok (status, some buf', bytes)) : buf' = buf := by
  cases s with
  | false =>
      cases hrun
      rfl
  | true =>
      simp only [dbufPop, Bool.not_true, Bool.false_eq_true, if_false] at hrun
      by_cases hzero : n = 0
      · rw [if_pos hzero] at hrun
        cases hrun
        rfl
      · rw [if_neg hzero] at hrun
        by_cases hmany : n > buf.top
        · rw [if_pos hmany] at hrun
          cases hrun
          rfl
        · rw [if_neg hmany, hb] at hrun
          cases hrun

/-- No call that comes to an end changes a buffer whose block was freed. -/
theorem dbufCall_freed {call : DbufCall} (hrun : (dbufCall call (some buf)).run answers =
    .ok ((status, some buf'), answers')) : buf' = buf := by
  cases call with
  | growTo newN =>
      rcases dbufGrowTo_freed hb newN.toNat answers with h | h
      · cases h.symm.trans hrun
        rfl
      · cases h.symm.trans hrun
  | grow =>
      rcases dbufGrowTo_freed hb (dbufNewN buf) answers with h | h
      · cases h.symm.trans hrun
        rfl
      · cases h.symm.trans hrun
  | stack op =>
      obtain ⟨⟨answer, last⟩, t, hstep, hret⟩ := AllocM.bind_eq_ok.mp hrun
      cases hret
      cases op with
      | push s =>
          obtain ⟨⟨st, last⟩, t', hpush, hret⟩ := AllocM.bind_eq_ok.mp hstep
          cases hret
          exact (dbufPush_freed hb hpush).1
      | pop s n =>
          obtain ⟨⟨st, last, popped⟩, hpop, hret⟩ := AllocM.lift_bind_eq_ok.mp hstep
          cases hret
          exact dbufPop_freed hb hpop

end Freed

/-- A buffer of some run stores some bytes, unless its block was freed. -/
theorem DbufReached.stores {buf : Dbuf} (h : DbufReached buf) :
    (∃ xs, Stores buf xs) ∨ buf.b = .freed := by
  induction h with
  | init initialN => exact .inl ⟨[], stores_dbufInit initialN⟩
  | @call buf buf' call answers answers' status _ hrun ih =>
      rcases ih with ⟨xs, hs⟩ | hb
      · by_cases hfrees : Frees buf call
        · cases (dbufCall_frees hs hfrees answers).symm.trans hrun
          exact .inr rfl
        · rcases dbufCall_ok hs hfrees answers with hassert | ⟨_, _, _, ys, hrun', hs', -⟩
          · cases hassert.symm.trans hrun
          · cases hrun'.symm.trans hrun
            exact .inl ⟨ys, hs'⟩
      · rw [dbufCall_freed hb hrun]
        exact .inr hb

/-! ## One push -/

section Push

variable {buf : Dbuf} {xs : List UInt8} (h : Stores buf xs) (hb : buf.b ≠ .null) (s : Bytes)
  (grants : Nat → Bool)

include h hb

theorem dbufNewN_live : dbufNewN buf = buf.n * GROW_FACTOR := by
  have hle := (h.live_le hb).2
  unfold PTRDIFF_MAX at hle
  rw [dbufNewN, if_pos hb, GROW_FACTOR]
  omega

/-- An empty buffer is not grown. -/
theorem dbufPush_empty (htop : buf.top = 0) :
    (buf.top + s.bytes.length ≤ buf.n → PushSucceeds grants buf s) ∧
      (buf.n < buf.top + s.bytes.length → ¬ PushSucceeds grants buf s) := by
  have hgrow : ¬ (buf.b = .null ∨ 0 < buf.top) := not_or.mpr ⟨hb, not_lt.mpr htop.le⟩
  have hroom := dbufMakeRoom_none hgrow (n := s.bytes.length) rfl (pushAnswers grants buf s)
  rw [h.top] at hroom ⊢
  refine ⟨fun hfits => ?_, fun hfull hs => ?_⟩
  · obtain ⟨buf', hrun, h'⟩ := dbufPush_ok h h hb hroom hfits
    exact ⟨buf', _, h.top ▸ hrun, by rw [h'.top, h.top, List.length_append]⟩
  · obtain ⟨_, _, hrun, -⟩ := hs
    cases (dbufPush_asserts h hroom (not_le.mpr hfull)).symm.trans hrun

/-- A buffer with something in it is grown, and it depends on the answers
whether that is enough. -/
theorem dbufPush_grows (htop : 0 < buf.top) :
    PushSucceeds grants buf s ↔
      if accepts [grants (buf.n * GROW_FACTOR)] (buf.n * GROW_FACTOR) = true then
        buf.top + s.bytes.length ≤ buf.n * GROW_FACTOR
      else
        buf.n ≤ buf.top + s.bytes.length ∧
          accepts [grants (buf.top + s.bytes.length)] (buf.top + s.bytes.length) = true := by
  have hfirst : accepts (pushAnswers grants buf s) (dbufNewN buf) =
      accepts [grants (buf.n * GROW_FACTOR)] (buf.n * GROW_FACTOR) := by
    rw [pushAnswers, dbufNewN_live h hb]
    rfl
  have hsucceeds : ∀ {buf' : Dbuf} {answers' : List Bool}, Stores buf' xs → buf'.b ≠ .null →
      (dbufMakeRoom buf s.bytes.length (xs.length + s.bytes.length)).run (pushAnswers grants buf s)
        = .ok ((0, some buf'), answers') →
      xs.length + s.bytes.length ≤ buf'.n → PushSucceeds grants buf s := by
    intro buf' answers' hstores hlive hroom hfits
    obtain ⟨buf'', hrun, h''⟩ := dbufPush_ok h hstores hlive hroom hfits
    exact ⟨buf'', _, h.top ▸ hrun, by rw [h''.top, h.top, List.length_append]⟩
  obtain ⟨retval, buf', answers', hroom, hcases⟩ := dbufMakeRoom_cases h (.inr htop)
    (congrArg (· + s.bytes.length) h.top.symm) (pushAnswers grants buf s)
  rw [← hfirst, ← dbufNewN_live h hb]
  obtain ⟨hans, rfl, hstores, hlive, hn⟩ | ⟨hans, rfl, hstores, hlive, hn, hle, hsecond⟩ |
    ⟨hans, hretval, rfl, hsecond⟩ := hcases
  · rw [if_pos hans, ← hn, h.top]
    refine ⟨fun ⟨_, _, hrun, _⟩ => ?_, hsucceeds hstores hlive hroom⟩
    by_contra hfull
    cases (dbufPush_asserts h hroom hfull).symm.trans hrun
  · rw [if_neg (Bool.eq_false_iff.mp hans)]
    rw [← h.top] at hle hsecond
    exact iff_of_true (hsucceeds hstores hlive hroom hn.ge) ⟨hle, hsecond.resolve_right hb⟩
  · rw [if_neg (Bool.eq_false_iff.mp hans)]
    rw [← h.top] at hsecond
    refine iff_of_false ?_ ?_
    · intro ⟨_, _, hrun, _⟩
      have hpos : 0 < retval := by rcases hretval with rfl | rfl <;> decide
      have hstatus := (dbufPush_refused h hpos.ne' hroom).symm.trans hrun
      simp only [Except.ok.injEq, Prod.mk.injEq] at hstatus
      omega
    · intro ⟨hle, hgot⟩
      rcases hsecond with hlt | hrefused
      · exact absurd hle (not_le.mpr hlt)
      · cases hgot.symm.trans hrefused

end Push

/-! ## Any reachable buffer -/

section Reachable

variable {buf : Dbuf} {xs : List UInt8} (h : Stores buf xs) (hb : buf.b ≠ .null) (s : Bytes)

include h hb

/-- An empty buffer makes no requests. -/
theorem onlyLacksMemory_of_empty (htop : buf.top = 0) :
    OnlyLacksMemory buf s ↔ GrowsEnough buf s := by
  have hpush := fun grants => dbufPush_empty h hb s grants htop
  rw [GrowsEnough]
  by_cases hroom : buf.top + s.bytes.length ≤ buf.n
  · rw [if_pos hroom]
    refine iff_of_true ⟨fun _ grants => (hpush grants).1 hroom, fun hfull => ?_⟩ htop
    exact absurd hroom (not_le.mpr hfull)
  · rw [if_neg hroom]
    have hfull := not_le.mp hroom
    constructor
    · intro ⟨_, hno⟩
      by_contra hmany
      have hle := not_lt.mp (not_or.mp hmany).1
      exact (hpush fun _ => true).2 hfull (hno hfull _ rfl hle)
    · rintro (hmany | ⟨hpos, -⟩)
      · refine ⟨fun hle => absurd hle hroom, fun _ _ _ hle => ?_⟩
        exact absurd hle (not_le.mpr hmany)
      · exact absurd htop hpos.ne'

/-- With room for the bytes, a request is made that need not be granted. -/
theorem not_onlyLacksMemory_of_room (htop : 0 < buf.top)
    (hroom : buf.top + s.bytes.length ≤ buf.n) : ¬ OnlyLacksMemory buf s := by
  intro ⟨hall, _⟩
  have hnone : ∀ size, ¬ accepts [false] size = true := fun _ => Bool.false_ne_true
  have hsucceeds := (dbufPush_grows h hb s _ htop).mp (hall hroom fun _ => false)
  rw [if_neg (hnone _)] at hsucceeds
  exact hnone _ hsucceeds.2

/-- Without room, a request for twice the capacity comes first. -/
theorem onlyLacksMemory_of_full (htop : 0 < buf.top)
    (hfull : buf.n < buf.top + s.bytes.length) :
    OnlyLacksMemory buf s ↔ PTRDIFF_MAX < buf.top + s.bytes.length ∨
      buf.top + s.bytes.length ≤ buf.n * GROW_FACTOR := by
  have hpush := fun grants => dbufPush_grows h hb s grants htop
  constructor
  · intro ⟨_, hno⟩
    by_contra hshort
    obtain ⟨hmany, hlt⟩ := not_or.mp hshort
    have hle := not_lt.mp hmany
    have hdouble : accepts [true] (buf.n * GROW_FACTOR) = true :=
      decide_eq_true ((not_le.mp hlt).le.trans hle)
    have hsucceeds := (hpush _).mp (hno hfull (fun _ => true) rfl hle)
    rw [if_pos hdouble] at hsucceeds
    exact hlt hsucceeds
  · intro henough
    refine ⟨fun hle => absurd hle (not_le.mpr hfull), fun _ grants hgrants hle => ?_⟩
    have hexact : accepts [grants (buf.top + s.bytes.length)]
        (buf.top + s.bytes.length) = true := by
      rw [hgrants]
      exact decide_eq_true hle
    have hdouble := henough.resolve_left (not_lt.mpr hle)
    refine (hpush grants).mpr ?_
    split
    · exact hdouble
    · exact ⟨hfull.le, hexact⟩

theorem onlyLacksMemory_iff : OnlyLacksMemory buf s ↔ GrowsEnough buf s := by
  rcases Nat.eq_zero_or_pos buf.top with htop | htop
  · exact onlyLacksMemory_of_empty h hb s htop
  · rw [GrowsEnough]
    by_cases hroom : buf.top + s.bytes.length ≤ buf.n
    · rw [if_pos hroom]
      exact iff_of_false (not_onlyLacksMemory_of_room h hb s htop hroom) htop.ne'
    · rw [if_neg hroom, and_iff_right htop]
      exact onlyLacksMemory_of_full h hb s htop (not_le.mp hroom)

end Reachable

/-- **When a push fails for lack of memory only**, in any buffer of a run that
has a block: just if the buffer is empty and has room, or is not empty and
twice the capacity is enough. -/
theorem dbufPush_onlyLacksMemory_iff {buf : Dbuf} (h : DbufReached buf)
    {cells : List (Option UInt8)} (hb : buf.b = .live cells) (s : Bytes) :
    OnlyLacksMemory buf s ↔ GrowsEnough buf s := by
  rcases h.stores with ⟨xs, hs⟩ | hfreed
  · refine onlyLacksMemory_iff hs ?_ s
    rw [hb]
    exact fun hnull => by cases hnull
  · rw [hb] at hfreed
    cases hfreed

/-- One byte was pushed into a buffer of the initial size 3. -/
def oneOfThree : Dbuf where
  b := .live [some 7, none, none]
  n := 3
  top := 1

theorem dbufReached_oneOfThree : DbufReached oneOfThree := by
  have hroom : (dbufMakeRoom (dbufInit 3) 1 1).run [] =
      .ok ((0, some { b := .live [none, none, none], n := 3, top := 0 }), []) := rfl
  have hpush : (dbufPush (some (dbufInit 3)) (some ⟨[7], by decide⟩)).run [] =
      .ok ((0, some oneOfThree), []) := by
    rw [dbufPush]
    show (dbufMakeRoom (dbufInit 3) 1 1 >>= _).run [] = _
    rw [StateT.run_bind, hroom]
    rfl
  have hcall : (dbufCall (.stack (.push (some ⟨[7], by decide⟩))) (some (dbufInit 3))).run [] =
      .ok ((0, some oneOfThree), []) := by
    rw [dbufCall, dbufStep, StateT.run_bind, StateT.run_bind, hpush]
    rfl
  exact .call (.init 3) hcall

theorem dbufPush_onlyLacksMemory_iff_three :
    OnlyLacksMemory oneOfThree ⟨[7], by decide⟩ ↔ GrowsEnough oneOfThree ⟨[7], by decide⟩ :=
  dbufPush_onlyLacksMemory_iff dbufReached_oneOfThree rfl _

/-- There is room for two bytes more, but no memory to double it. -/
theorem dbufPush_room_einval : DbufReached oneOfThree ∧
    ¬ OnlyLacksMemory oneOfThree ⟨[7], by decide⟩ := by
  refine ⟨dbufReached_oneOfThree, fun h => ?_⟩
  obtain ⟨buf', answers', hrun, -⟩ := h.room (by decide) fun _ => false
  have hroom : (dbufMakeRoom oneOfThree 1 2).run [false, false] =
      .ok ((EINVAL, some oneOfThree), [false]) := rfl
  have hpush : (dbufPush (some oneOfThree) (some ⟨[7], by decide⟩)).run [false, false] =
      .ok ((-EINVAL, some oneOfThree), [false]) := by
    rw [dbufPush]
    show (dbufMakeRoom oneOfThree 1 2 >>= _).run [false, false] = _
    rw [StateT.run_bind, hroom]
    rfl
  cases hpush.symm.trans hrun

end Jccl
