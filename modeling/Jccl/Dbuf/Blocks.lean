/-
# `Jccl.Dbuf.Blocks` — whether a `dbuf` has the block it says it has

All four calls keep the block, with one exception.  A block of no bytes is
what `realloc` gives for `dbuf_grow_to(buf, 0)`, or for a push of no bytes
when there is no memory.  `dbuf_grow_to` takes `0` for no smaller than the
capacity of such a block, and then `realloc` frees it and returns NULL, which
is taken for a failure: the freed pointer stays in the buffer (`Frees`).
-/
import Jccl.Dbuf.Stack

namespace Jccl

open Block

inductive DbufCall where
  | growTo (newN : BitVec 64)
  | grow
  | stack (op : DbufOp)

/-- Whether the call is one of `dbuf_grow_to` and `dbuf_grow`. -/
def DbufCall.grows : DbufCall → Bool
  | .growTo _ | .grow => true
  | .stack _ => false

/-- What the call returns, and what `buf` points to afterwards. -/
def dbufCall : DbufCall → Option Dbuf → AllocM (Int × Option Dbuf)
  | .growTo newN, buf => dbufGrowTo buf newN.toNat
  | .grow, buf => dbufGrow buf
  | .stack op, buf => do
      let (answer, buf) ← dbufStep op buf
      return (answer.status, buf)

/-- A pointer that is not NULL is that of a live block with as many bytes as
the capacity says. -/
structure DbufSound (buf : Dbuf) : Prop where
  live : buf.b ≠ .null → ∃ cells, buf.b = .live cells ∧ cells.length = buf.n ∧ buf.top ≤ buf.n
  null : buf.b = .null → buf.top = 0

/-- The call asks `realloc` to make a block of no bytes one of no bytes. -/
def Frees (buf : Dbuf) : DbufCall → Prop
  | .growTo newN => buf.b ≠ .null ∧ buf.n = 0 ∧ newN = 0
  | .grow => buf.b ≠ .null ∧ buf.n = 0
  | .stack _ => False

/-! ## One call -/

section Step

variable {buf : Dbuf} {xs : List UInt8}

theorem Stores.sound (h : Stores buf xs) : DbufSound buf where
  live hb := by
    obtain ⟨hnull, -⟩ | ⟨cells, hcells, hbegins, -⟩ := h.block
    · exact absurd hnull hb
    · exact ⟨cells, hcells, hbegins.length, h.top_le_n⟩
  null hb := by
    obtain ⟨-, rfl⟩ | ⟨cells, hcells, -, -⟩ := h.block
    · exact h.top
    · rw [hb] at hcells
      cases hcells

/-- A request is refused and changes nothing, or granted and keeps the bytes. -/
theorem dbufGrowTo_cases (h : Stores buf xs) {newN : Nat}
    (hkeeps : ¬ (buf.b ≠ .null ∧ buf.n = 0 ∧ newN = 0)) (answers : List Bool) :
    ∃ status buf' answers',
      (dbufGrowTo (some buf) newN).run answers = .ok ((status, some buf'), answers') ∧
      Stores buf' xs ∧ (status ≠ 0 → buf' = buf) := by
  rcases Nat.lt_or_ge newN buf.n with hsmall | hle
  · exact ⟨_, buf, answers, dbufGrowTo_small hsmall, h, fun _ => rfl⟩
  · by_cases hgot : (accepts answers newN = true ∧ newN ≠ 0) ∨ (buf.b = .null ∧ newN = 0)
    · obtain ⟨buf', answers', hrun, h', -⟩ := dbufGrowTo_ok h hle hgot
      exact ⟨_, buf', answers', hrun, h', absurd rfl⟩
    · rw [not_or] at hgot
      have hpos : newN ≠ 0 := by
        intro hzero
        by_cases hb : buf.b = .null
        · exact hgot.2 ⟨hb, hzero⟩
        · exact hkeeps ⟨hb, Nat.le_zero.mp (hzero ▸ hle), hzero⟩
      have hans : accepts answers newN = false :=
        Bool.eq_false_of_not_eq_true fun hans => hgot.1 ⟨hans, hpos⟩
      exact ⟨_, buf, _, dbufGrowTo_refused h hle hpos hans, h, fun _ => rfl⟩

theorem dbufGrowTo_frees (h : Stores buf xs) (hb : buf.b ≠ .null) (hn : buf.n = 0)
    (answers : List Bool) :
    (dbufGrowTo (some buf) 0).run answers =
      .ok ((ENOMEM, some { buf with b := .freed }), answers) := by
  obtain ⟨hnull, -⟩ | ⟨cells, hcells, -, -⟩ := h.block
  · exact absurd hnull hb
  · have hrun : (buf.b.realloc 0).run answers = .ok ((.null, .freed), answers) := by
      rw [hcells]
      rfl
    have hle : ¬ 0 < buf.n := not_lt.mpr hn.le
    simp only [dbufGrowTo, if_neg hle, StateT.run_bind, hrun, Outcome.ok_bind]
    rfl

/-- A push may fail its assertion; but for that, every call that does not free
the block keeps it. -/
theorem dbufCall_ok (h : Stores buf xs) {call : DbufCall} (hkeeps : ¬ Frees buf call)
    (answers : List Bool) :
    (dbufCall call (some buf)).run answers = .error .assertion ∨
    ∃ status buf' answers' ys,
      (dbufCall call (some buf)).run answers = .ok ((status, some buf'), answers') ∧
      Stores buf' ys ∧ (call.grows = true → status ≠ 0 → buf' = buf) := by
  cases call with
  | growTo newN =>
      right
      obtain ⟨status, buf', answers', hrun, h', herr⟩ :=
        @dbufGrowTo_cases buf xs h newN.toNat
          (fun hfrees => hkeeps ⟨hfrees.1, hfrees.2.1, BitVec.eq_of_toNat_eq hfrees.2.2⟩) answers
      exact ⟨status, buf', answers', xs, hrun, h', fun _ => herr⟩
  | grow =>
      right
      obtain ⟨status, buf', answers', hrun, h', herr⟩ :=
        @dbufGrowTo_cases buf xs h (dbufNewN buf)
          (fun hfrees => hkeeps ⟨hfrees.1, hfrees.2.1⟩) answers
      exact ⟨status, buf', answers', xs, hrun, h', fun _ => herr⟩
  | stack op =>
      by_cases hfits : OpFits buf answers op
      · right
        obtain ⟨answer, buf', answers', ys, hrun, -, h'⟩ := dbufStep_ok h answers hfits
        refine ⟨answer.status, buf', answers', ys, ?_, h', fun hgrows => by cases hgrows⟩
        rw [dbufCall, StateT.run_bind, hrun]
        rfl
      · left
        rw [dbufCall, StateT.run_bind, dbufStep_asserts h answers hfits]
        rfl

theorem dbufCall_frees (h : Stores buf xs) {call : DbufCall} (hfrees : Frees buf call)
    (answers : List Bool) :
    (dbufCall call (some buf)).run answers =
      .ok ((ENOMEM, some { buf with b := .freed }), answers) := by
  cases call with
  | growTo newN =>
      obtain ⟨hb, hn, rfl⟩ := hfrees
      exact dbufGrowTo_frees h hb hn answers
  | grow =>
      obtain ⟨hb, hn⟩ := hfrees
      have hzero : dbufNewN buf = 0 := by
        rw [dbufNewN, if_pos hb, hn]
        rfl
      have hrun := dbufGrowTo_frees h hb hn answers
      rw [← hzero] at hrun
      exact hrun
  | stack op => exact absurd hfrees id

end Step

/-! ## Whole runs -/

/-- In every state that the calls go through the buffer has its block, and a
call that cannot grow it changes nothing.  A run may end with an assertion. -/
def RunSound : List DbufCall → Dbuf → List Bool → Prop
  | [], buf, _ => DbufSound buf
  | call :: calls, buf, answers => DbufSound buf ∧
      match (dbufCall call (some buf)).run answers with
      | .error e => e = .assertion
      | .ok ((_, none), _) => False
      | .ok ((status, some buf'), answers') =>
          (call.grows = true → status ≠ 0 → buf' = buf) ∧ RunSound calls buf' answers'

/-- No call frees the block, in the state that the calls before it leave. -/
def RunKeeps : List DbufCall → Dbuf → List Bool → Prop
  | [], _, _ => True
  | call :: calls, buf, answers => ¬ Frees buf call ∧
      ∀ status buf' answers', (dbufCall call (some buf)).run answers
        = .ok ((status, some buf'), answers') → RunKeeps calls buf' answers'

theorem runSound_of_runKeeps {calls : List DbufCall} {buf : Dbuf} {xs : List UInt8}
    {answers : List Bool} (h : Stores buf xs) (hkeeps : RunKeeps calls buf answers) :
    RunSound calls buf answers := by
  induction calls generalizing buf xs answers with
  | nil => exact h.sound
  | cons call calls ih =>
      refine ⟨h.sound, ?_⟩
      rcases dbufCall_ok h hkeeps.1 answers with hrun | ⟨status, buf', answers', ys, hrun, h', herr⟩
      · rw [hrun]
      · rw [hrun]
        exact ⟨herr, ih h' (hkeeps.2 _ _ _ hrun)⟩

theorem runKeeps_of_runSound {calls : List DbufCall} {buf : Dbuf} {xs : List UInt8}
    {answers : List Bool} (h : Stores buf xs) (hsound : RunSound calls buf answers) :
    RunKeeps calls buf answers := by
  induction calls generalizing buf xs answers with
  | nil => exact trivial
  | cons call calls ih =>
      obtain ⟨-, hstep⟩ := hsound
      by_cases hfrees : Frees buf call
      · -- the state after it is not what was said of it
        rw [dbufCall_frees h hfrees answers] at hstep
        have hgrows : call.grows = true := by
          cases call with
          | growTo newN => rfl
          | grow => rfl
          | stack op => exact absurd hfrees id
        have hsame : ({ buf with b := .freed } : Dbuf) = buf := hstep.1 hgrows (by decide)
        have hfreed : buf.b = .freed := (congrArg Dbuf.b hsame).symm
        obtain ⟨hnull, -⟩ | ⟨cells, hcells, -, -⟩ := h.block
        · rw [hnull] at hfreed
          cases hfreed
        · rw [hcells] at hfreed
          cases hfreed
      · refine ⟨hfrees, fun status buf' answers' hrun => ?_⟩
        rcases dbufCall_ok h hfrees answers with hassert | ⟨_, _, _, ys, hrun', h', -⟩
        · rw [hassert] at hrun
          cases hrun
        · rw [hrun'] at hrun
          cases hrun
          rw [hrun'] at hstep
          exact ih h' hstep.2

/-- **A `dbuf` has the block it says it has**, after any calls and whatever the
allocator answers, just if no call frees a block of no bytes. -/
theorem dbuf_runSound_iff (initialN : BitVec 64) (calls : List DbufCall) (answers : List Bool) :
    RunSound calls (dbufInit initialN) answers ↔ RunKeeps calls (dbufInit initialN) answers :=
  ⟨runKeeps_of_runSound (stores_dbufInit initialN), runSound_of_runKeeps (stores_dbufInit initialN)⟩

/-- A block of no bytes, which the next call frees and keeps the pointer to. -/
theorem dbufGrow_frees_empty : ¬ RunSound [.growTo 0, .grow] (dbufInit 0) [] := by
  intro ⟨_, _, _, hstep⟩
  exact absurd (hstep.1 rfl (by decide)) (by intro h; cases congrArg Dbuf.b h)

end Jccl
