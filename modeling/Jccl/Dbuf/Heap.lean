/-
# `Jccl.Dbuf.Heap` — a `dbuf` with its block, from `dbuf_init` to `dbuf_destroy`

The functions of `Dbuf.Defs` once more, over memory: `b` is a pointer to a block
among others, and `realloc` may move it.  A request for no bytes gets a block
always, as it does from glibc; an answer without one leads astray.

At the end the block is freed.  It was not freed before, unless a call has
made `realloc` free a block of no bytes, and the pointer to it was kept.
-/
import Jccl.Dbuf.Memory
import Jccl.Lib.Refines

namespace Jccl

open Block BlockM

abbrev Cells := List (Option UInt8)

/-- `struct dbuf`, with a pointer. -/
structure DbufAt where
  b : Option Addr
  n : Nat
  top : Nat

/-- A request for some bytes; above `PTRDIFF_MAX` they are too many for any block. -/
def requestAt (size : Nat) (ask : Heap Cells → Option Addr → Option Addr × Heap Cells) :
    BlockM Cells (Option Addr) := do
  let mem ← get
  let (p, h) :=
    if size ≤ PTRDIFF_MAX then ask mem.heap (mem.answers.headD none) else (none, mem.heap)
  set { mem with heap := h, answers := mem.answers.tail, served := mem.served ++ [p.isSome] }
  return p

/-- `malloc(0)`, which is not refused. -/
def mallocEmptyAt : BlockM Cells (Option Addr) := do
  let mem ← get
  let (p, h) := mem.heap.malloc (mem.answers.headD none) []
  set { mem with heap := h, answers := mem.answers.tail, astray := mem.astray || p.isNone }
  assert (p ≠ none)
  return p

/-- `realloc(p, size)` -/
def reallocAt (p : Option Addr) (size : Nat) : BlockM Cells (Option Addr) :=
  match p with
  | none =>
      if size = 0 then
        mallocEmptyAt
      else
        requestAt size fun h answer => h.malloc answer (resize [] size)
  | some a => do
      let cells ← load (some a)
      if size = 0 then
        free (some a)
        return none
      else
        requestAt size fun h answer => h.realloc answer a (resize cells size)

/-- `memmove(p + offset, s, …)` -/
def writeBytesAt (p : Option Addr) (offset : Nat) (s : List UInt8) : BlockM Cells Unit :=
  update p fun cells =>
    if offset + s.length ≤ cells.length then
      .ok (cells.take offset ++ s.map some ++ cells.drop (offset + s.length), ())
    else
      .error .bounds

/-- `memmove(…, p + offset, n)` -/
def readBytesAt (p : Option Addr) (offset n : Nat) : BlockM Cells Cells := do
  let cells ← load p
  if offset + n ≤ cells.length then return (cells.drop offset).take n else throw .bounds

def dbufInitAt (initialN : BitVec 64) : DbufAt := { b := none, n := initialN.toNat, top := 0 }

def dbufDestroyAt (buf : Option DbufAt) : BlockM Cells Unit := do
  let some buf := buf | return ()
  free buf.b

def dbufGrowToAt (buf : Option DbufAt) (newN : Nat) : BlockM Cells (Int × Option DbufAt) := do
  let some buf := buf | return (EINVAL, none)
  if newN < buf.n then return (EINVAL, some buf)
  let newB ← reallocAt buf.b newN
  if newB = none then
    return (ENOMEM, some buf)
  else
    return (0, some { buf with b := newB, n := newN })

def dbufNewNAt (buf : DbufAt) : Nat :=
  if buf.b ≠ none then
    buf.n * GROW_FACTOR % 2 ^ 64
  else if buf.n ≠ 0 then
    buf.n
  else
    WORD_SIZE

def dbufGrowAt (buf : Option DbufAt) : BlockM Cells (Int × Option DbufAt) := do
  let some buf := buf | return (EINVAL, none)
  dbufGrowToAt (some buf) (dbufNewNAt buf)

def dbufMakeRoomAt (buf : DbufAt) (n newTop : Nat) : BlockM Cells (Int × Option DbufAt) :=
  if buf.b = none ∨ newTop > n then do
    let (retval, grown) ← dbufGrowAt (some buf)
    if retval ≠ 0 then dbufGrowToAt grown newTop else return (retval, grown)
  else
    return (0, some buf)

def dbufPushAt (buf : Option DbufAt) (s : Option Bytes) : BlockM Cells (Int × Option DbufAt) := do
  let some old := buf | return (-EINVAL, buf)
  let some s := s | return (-EINVAL, buf)
  let n := s.bytes.length
  let newTop := (old.top + n) % 2 ^ 64
  let (retval, buf) ← dbufMakeRoomAt old n newTop
  if retval ≠ 0 then return (-retval, buf)
  let buf ← deref buf
  assert (buf.n ≥ newTop)
  let offset := buf.top
  writeBytesAt buf.b offset s.bytes
  return (toSsize offset, some { buf with top := (buf.top + n) % 2 ^ 64 })

def dbufPopAt (buf : Option DbufAt) (s : Bool) (n : Nat) :
    BlockM Cells (Int × Option DbufAt × Cells) := do
  let some old := buf | return (EINVAL, buf, [])
  if !s then return (EINVAL, buf, [])
  if n = 0 then return (0, buf, [])
  if n > old.top then return (ENODATA, buf, [])
  let top := old.top - n
  let bytes ← readBytesAt old.b top n
  return (0, some { old with top := top }, bytes)

def dbufCallAt : DbufCall → Option DbufAt → BlockM Cells (Int × Option DbufAt)
  | .growTo newN, buf => dbufGrowToAt buf newN.toNat
  | .grow, buf => dbufGrowAt buf
  | .stack (.push s), buf => dbufPushAt buf s
  | .stack (.pop s n), buf => do
      let (status, buf, _) ← dbufPopAt buf s n
      return (status, buf)

/-! ## What a pointer is worth -/

/-- The block of the pointer, and nothing else beside `h₀`. -/
inductive Worth (h₀ : Heap Cells) : Option Addr → Block → Heap Cells → Prop
  | null : Worth h₀ none .null h₀
  | live {a cells} : h₀ a = none →
      Worth h₀ (some a) (.live cells) (Function.update h₀ a (some cells))
  | freed {a} : h₀ a = none → Worth h₀ (some a) .freed h₀

/-- What `realloc` returns: NULL, and the block is worth something else or what it
was; or a block. -/
inductive Resized (h₀ : Heap Cells) (p : Option Addr) :
    Option Addr → Block × Block → Heap Cells → Prop
  | refused {old h} : Worth h₀ p old h → Resized h₀ p none (.null, old) h
  | resized {a new old h} : Worth h₀ (some a) new h → Resized h₀ p (some a) (new, old) h

section Realloc

variable {h₀ h : Heap Cells} {p : Option Addr} {b : Block} {size : Nat}

/-- The request is served, or the memory is as it was. -/
theorem requestAt_refines {f : AllocM (Block × Block)} {new old : Block}
    {ask : Heap Cells → Option Addr → Option Addr × Heap Cells} (hw : Worth h₀ p b h)
    (hno : ∀ rest, f.run (false :: rest) = .ok ((.null, b), rest))
    (hyes : size ≤ PTRDIFF_MAX → ∀ rest, f.run (true :: rest) = .ok ((new, old), rest))
    (hask : ∀ answer, ask h answer = (none, h) ∨
      ∃ a h', ask h answer = (some a, h') ∧ Worth h₀ (some a) new h') :
    Refines (Resized h₀ p) h (requestAt size ask) f := by
  rintro mem rfl hastray
  have hrun : ∀ q h, (if size ≤ PTRDIFF_MAX then ask mem.heap (mem.answers.headD none)
      else (none, mem.heap)) = (q, h) → (requestAt size ask).exec mem = (.ok q, { mem with
        heap := h, answers := mem.answers.tail, served := mem.served ++ [q.isSome] }) := by
    intro q h hq
    have hexec : (requestAt size ask).exec mem
        = (fun r : Option Addr × Heap Cells => (Except.ok r.1, { mem with
            heap := r.2, answers := mem.answers.tail, served := mem.served ++ [r.1.isSome] }))
          (if size ≤ PTRDIFF_MAX then ask mem.heap (mem.answers.headD none)
            else (none, mem.heap)) := rfl
    rw [hexec, hq]
  have hrefused : Agrees (Resized h₀ p) f mem.served (.ok none, { mem with
      answers := mem.answers.tail, served := mem.served ++ [false] }) :=
    .value (l := [false]) hastray rfl hno (.refused hw)
  by_cases hfits : size ≤ PTRDIFF_MAX
  · rcases hask (mem.answers.headD none) with hask | ⟨a, h', hask, hworth⟩
    · rw [hrun none mem.heap ((if_pos hfits).trans hask)]
      exact hrefused
    · rw [hrun (some a) h' ((if_pos hfits).trans hask)]
      exact .value (l := [true]) hastray rfl (hyes hfits) (.resized hworth)
  · rw [hrun none mem.heap (if_neg hfits)]
    exact hrefused

theorem mallocEmptyAt_refines :
    Refines (Resized h₀ none) h₀ mallocEmptyAt (Block.null.realloc 0) := by
  rintro mem rfl hastray
  have hrun : mallocEmptyAt.exec mem = BlockM.exec (do
      assert ((mem.heap.malloc (mem.answers.headD none) []).1 ≠ none)
      return (mem.heap.malloc (mem.answers.headD none) []).1)
      { mem with
        heap := (mem.heap.malloc (mem.answers.headD none) []).2
        answers := mem.answers.tail
        astray := mem.astray || (mem.heap.malloc (mem.answers.headD none) []).1.isNone } := rfl
  rw [hrun]
  cases hg : Heap.grants mem.heap (mem.answers.headD none) with
  | false =>
      rw [Heap.malloc_of_not_grants hg]
      exact .astray (Bool.or_true _)
  | true =>
      obtain ⟨a, -, ha, hblock⟩ := Heap.malloc_of_grants (n := ([] : Cells)) hg
      rw [hblock]
      exact .value (l := []) ((Bool.or_false _).trans hastray) (List.append_nil _).symm
        (fun _ => rfl) (.resized (.live ha))

/-- A block stays where it is, or is moved, or freed. -/
theorem reallocAt_live_refines {a : Addr} {cells : Cells} (ha : h₀ a = none) (size : Nat) :
    Refines (Resized h₀ (some a)) (Function.update h₀ a (some cells)) (reallocAt (some a) size)
      ((Block.live cells).realloc size) := by
  have hnone : Function.update h₀ a none = h₀ := Function.update_eq_self_iff.mpr ha.symm
  refine refines_load (Function.update_self ..) ?_
  by_cases hsize : size = 0
  · subst hsize
    have hrealloc : (Block.live cells).realloc 0 = pure (.null, .freed) := rfl
    rw [if_pos rfl, hrealloc]
    refine refines_free (Function.update_self ..) (refines_pure ?_)
    rw [Function.update_idem, hnone]
    exact .refused (.freed ha)
  · rw [if_neg hsize]
    refine requestAt_refines (.live ha) (fun _ => (if_neg hsize).trans (if_neg Bool.false_ne_true))
      (fun hfits _ => (if_neg hsize).trans (if_pos (decide_eq_true hfits))) fun answer => ?_
    rcases Heap.realloc_cases _ a answer (resize cells size) with
      ⟨-, hstay⟩ | ⟨b, hba, hb, -, hmoved⟩ | ⟨-, hrefused⟩
    · refine .inr ⟨a, _, hstay, ?_⟩
      rw [Function.update_idem]
      exact .live ha
    · refine .inr ⟨b, _, hmoved, ?_⟩
      rw [Function.update_of_ne hba] at hb
      rw [Function.update_comm hba, Function.update_idem, hnone]
      exact .live hb
    · exact .inl hrefused

theorem reallocAt_refines (hw : Worth h₀ p b h) (size : Nat) :
    Refines (Resized h₀ p) h (reallocAt p size) (b.realloc size) := by
  cases hw with
  | live ha => exact reallocAt_live_refines ha size
  | null =>
      by_cases hsize : size = 0
      · rw [hsize]
        exact mallocEmptyAt_refines
      · rw [reallocAt, if_neg hsize]
        refine requestAt_refines .null (fun _ => (if_neg hsize).trans (if_neg Bool.false_ne_true))
          (fun hfits _ => (if_neg hsize).trans (if_pos (decide_eq_true hfits))) fun answer => ?_
        cases hg : Heap.grants h₀ answer with
        | false => exact .inl (Heap.malloc_of_not_grants hg)
        | true =>
            obtain ⟨a, -, ha, hblock⟩ := Heap.malloc_of_grants (n := resize [] size) hg
            exact .inr ⟨a, _, hblock, .live ha⟩
  | freed ha => exact refines_dangling ha fun _ => rfl

end Realloc

/-! ## The calls -/

/-- The buffer, with the block that its pointer is worth. -/
structure Placed (h₀ : Heap Cells) (p : DbufAt) (buf : Dbuf) (h : Heap Cells) : Prop where
  n : p.n = buf.n
  top : p.top = buf.top
  b : Worth h₀ p.b buf.b h

inductive DbufReturns (h₀ : Heap Cells) : Int × Option DbufAt → Int × Option Dbuf → Heap Cells → Prop
  | mk {status p buf h} : Placed h₀ p buf h → DbufReturns h₀ (status, some p) (status, some buf) h

section Calls

variable {h₀ h : Heap Cells} {p : DbufAt} {buf : Dbuf}

theorem Worth.null_iff {q : Option Addr} {b : Block} (hw : Worth h₀ q b h) :
    q = none ↔ b = .null := by
  cases hw with
  | null => exact iff_of_true rfl rfl
  | live => exact iff_of_false (Option.some_ne_none _) fun hb => nomatch hb
  | freed => exact iff_of_false (Option.some_ne_none _) fun hb => nomatch hb

theorem dbufGrowToAt_refines (hp : Placed h₀ p buf h) (newN : Nat) :
    Refines (DbufReturns h₀) h (dbufGrowToAt (some p) newN) (dbufGrowTo (some buf) newN) := by
  rw [dbufGrowToAt, dbufGrowTo, hp.n]
  by_cases hsmall : newN < buf.n
  · rw [if_pos hsmall, if_pos hsmall]
    exact refines_pure (.mk hp)
  · rw [if_neg hsmall, if_neg hsmall]
    refine (reallocAt_refines hp.b newN).bind fun q r h' hr => ?_
    cases hr with
    | refused hw => exact refines_pure (.mk ⟨hp.n, hp.top, hw⟩)
    | @resized a new old _ hw =>
        have hnew : new ≠ .null := fun hnull => Option.some_ne_none a (hw.null_iff.mpr hnull)
        dsimp only
        rw [if_neg (Option.some_ne_none a), if_neg hnew]
        exact refines_pure (.mk ⟨rfl, hp.top, hw⟩)

theorem dbufNewNAt_eq (hp : Placed h₀ p buf h) : dbufNewNAt p = dbufNewN buf := by
  simp only [dbufNewNAt, dbufNewN, hp.n, ne_eq, hp.b.null_iff]

theorem dbufMakeRoomAt_refines (hp : Placed h₀ p buf h) (n newTop : Nat) :
    Refines (DbufReturns h₀) h (dbufMakeRoomAt p n newTop) (dbufMakeRoom buf n newTop) := by
  simp only [dbufMakeRoomAt, dbufMakeRoom, hp.b.null_iff]
  split
  · rw [dbufGrowAt, dbufGrow, dbufNewNAt_eq hp]
    refine (dbufGrowToAt_refines hp _).bind fun x y h' hr => ?_
    cases hr with
    | @mk status p' buf' _ hp' =>
        dsimp only
        split
        · exact dbufGrowToAt_refines hp' newTop
        · exact refines_pure (.mk hp')
  · exact refines_pure (.mk hp)

/-- The block is written to where it is. -/
theorem writeBytesAt_refines (hp : Placed h₀ p buf h) (offset : Nat) (s : List UInt8) :
    Refines (fun _ b h' => Worth h₀ p.b b h') h (writeBytesAt p.b offset s)
      (liftM (buf.b.write offset s)) := by
  obtain ⟨b, n, top⟩ := p
  obtain ⟨b', n', top'⟩ := buf
  have hw := hp.b
  cases hw with
  | null => exact refines_throw .null
  | freed ha => exact refines_dangling ha fun _ => rfl
  | @live a cells ha =>
      refine refines_load (Function.update_self ..) ?_
      by_cases hfits : offset + s.length ≤ cells.length
      · simp only [Block.write, if_pos hfits]
        refine refines_store (Function.update_self ..) (refines_pure ?_)
        rw [Function.update_idem]
        exact .live ha
      · simp only [Block.write, if_neg hfits]
        exact refines_throw .bounds

theorem dbufPushAt_refines (hp : Placed h₀ p buf h) (s : Option Bytes) :
    Refines (DbufReturns h₀) h (dbufPushAt (some p) s) (dbufPush (some buf) s) := by
  cases s with
  | none => exact refines_pure (.mk hp)
  | some s =>
      simp only [dbufPushAt, dbufPush, hp.top]
      refine (dbufMakeRoomAt_refines hp _ _).bind fun x y h' hr => ?_
      cases hr with
      | @mk status p' buf' _ hp' =>
          dsimp only
          split
          · exact refines_pure (.mk hp')
          · simp only [deref_some]
            -- the pointers to the two structs are not NULL
            show Refines (DbufReturns h₀) h' (do
              assert (p'.n ≥ (buf.top + s.bytes.length) % 2 ^ 64)
              writeBytesAt p'.b p'.top s.bytes
              return (toSsize p'.top, some { p' with top := (p'.top + s.bytes.length) % 2 ^ 64 })) (do
              assert (buf'.n ≥ (buf.top + s.bytes.length) % 2 ^ 64)
              let b ← buf'.b.write buf'.top s.bytes
              return (toSsize buf'.top,
                some { buf' with b := b, top := (buf'.top + s.bytes.length) % 2 ^ 64 }))
            rw [hp'.n, hp'.top]
            refine refines_lift_bind fun _ _ => ?_
            refine (writeBytesAt_refines hp' _ _).bind fun _ b h'' hw => refines_pure (.mk ?_)
            exact ⟨rfl, rfl, hw⟩

theorem readBytesAt_refines (hp : Placed h₀ p buf h) (offset n : Nat) :
    Refines (fun x y h' => x = y ∧ h' = h) h (readBytesAt p.b offset n)
      (liftM (buf.b.read offset n)) := by
  obtain ⟨b, n', top⟩ := p
  obtain ⟨b', n'', top'⟩ := buf
  have hw := hp.b
  cases hw with
  | null => exact refines_throw .null
  | freed ha => exact refines_dangling ha fun _ => rfl
  | @live a cells ha =>
      refine refines_load (Function.update_self ..) ?_
      by_cases hfits : offset + n ≤ cells.length
      · simp only [Block.read, if_pos hfits]
        exact refines_pure ⟨rfl, rfl⟩
      · simp only [Block.read, if_neg hfits]
        exact refines_throw .bounds

theorem dbufPopAt_refines (hp : Placed h₀ p buf h) (s : Bool) (n : Nat) :
    Refines (fun x y h' => DbufReturns h₀ (x.1, x.2.1) (y.1, y.2.1) h' ∧ x.2.2 = y.2.2) h
      (dbufPopAt (some p) s n) (liftM (dbufPop (some buf) s n)) := by
  cases s with
  | false => exact refines_pure ⟨.mk hp, rfl⟩
  | true =>
      simp only [dbufPopAt, dbufPop, hp.top, Bool.not_true, Bool.false_eq_true, if_false]
      by_cases hzero : n = 0
      · simp only [if_pos hzero]
        exact refines_pure ⟨.mk hp, rfl⟩
      · simp only [if_neg hzero]
        by_cases hmany : n > buf.top
        · simp only [if_pos hmany]
          exact refines_pure ⟨.mk hp, rfl⟩
        · simp only [if_neg hmany, AllocM.lift_bind]
          refine (readBytesAt_refines hp _ _).bind fun x y h' hr => ?_
          obtain ⟨rfl, rfl⟩ := hr
          exact refines_pure ⟨.mk ⟨hp.n, rfl, hp.b⟩, rfl⟩

/-- A call goes as it goes where a pointer is what it is worth. -/
theorem dbufCallAt_refines (hp : Placed h₀ p buf h) (call : DbufCall) :
    Refines (DbufReturns h₀) h (dbufCallAt call (some p)) (dbufCall call (some buf)) := by
  cases call with
  | growTo newN => exact dbufGrowToAt_refines hp newN.toNat
  | grow =>
      rw [dbufCallAt, dbufCall, dbufGrowAt, dbufGrow, dbufNewNAt_eq hp]
      exact dbufGrowToAt_refines hp _
  | stack op =>
      cases op with
      | push s =>
          have hpush : dbufCall (.stack (.push s)) (some buf) = dbufPush (some buf) s := by
            simp only [dbufCall, dbufStep, bind_assoc, pure_bind]
            exact bind_pure _
          rw [hpush]
          exact dbufPushAt_refines hp s
      | pop s n =>
          have hpop : dbufCall (.stack (.pop s n)) (some buf)
              = liftM (dbufPop (some buf) s n) >>= fun r => pure (r.1, r.2.1) := by
            simp only [dbufCall, dbufStep, bind_assoc, pure_bind]
          rw [hpop]
          exact (dbufPopAt_refines hp s n).bind fun x y h' hr => refines_pure hr.1

end Calls

/-! ## The end of a buffer -/

/-- The calls of a whole life come to an end, in the buffer `later`. -/
inductive DbufLife : List DbufCall → Dbuf → List Bool → Dbuf → Prop
  | nil {buf answers} : DbufLife [] buf answers buf
  | cons {call calls buf mid later answers answers' status} :
      (dbufCall call (some buf)).run answers = .ok ((status, some mid), answers') →
      DbufLife calls mid answers' later → DbufLife (call :: calls) buf answers later

inductive DbufLifeAt : List DbufCall → DbufAt → Blocks Cells → DbufAt → Blocks Cells → Prop
  | nil {p mem} : DbufLifeAt [] p mem p mem
  | cons {call calls p mid later mem mem' mem'' status} :
      (dbufCallAt call (some p)).exec mem = (.ok (status, some mid), mem') →
      DbufLifeAt calls mid mem' later mem'' → DbufLifeAt (call :: calls) p mem later mem''

section Life

variable {buf later : Dbuf} {xs : List UInt8} {calls : List DbufCall} {answers : List Bool}

theorem DbufLife.freed (h : DbufLife calls buf answers later) (hb : buf.b = .freed) :
    later = buf := by
  induction h with
  | nil => rfl
  | cons hrun _ ih =>
      cases dbufCall_freed hb hrun
      exact ih hb

theorem RunKeeps.cons {call : DbufCall} {mid : Dbuf} {answers' : List Bool} {status : Int}
    (hrun : (dbufCall call (some buf)).run answers = .ok ((status, some mid), answers'))
    (hcall : ¬ Frees buf call) (hcalls : RunKeeps calls mid answers') :
    RunKeeps (call :: calls) buf answers := by
  refine ⟨hcall, fun _ _ _ h => ?_⟩
  cases hrun.symm.trans h
  exact hcalls

/-- Whether the calls freed the block shows in the buffer that they leave. -/
theorem DbufLife.stores_or_freed (h : DbufLife calls buf answers later) (hs : Stores buf xs) :
    (RunKeeps calls buf answers ∧ ∃ ys, Stores later ys) ∨
      (¬ RunKeeps calls buf answers ∧ later.b = .freed) := by
  induction h generalizing xs with
  | nil => exact Or.inl ⟨trivial, xs, hs⟩
  | @cons call calls buf mid later answers answers' status hrun hlife ih =>
      by_cases hfrees : Frees buf call
      · right
        refine ⟨fun hkeeps => hkeeps.1 hfrees, ?_⟩
        cases (dbufCall_frees hs hfrees answers).symm.trans hrun
        rw [hlife.freed rfl]
      · rcases dbufCall_ok hs hfrees answers with hassert | ⟨_, _, _, ys, hrun', hs', -⟩
        · cases hassert.symm.trans hrun
        · cases hrun'.symm.trans hrun
          rcases ih hs' with ⟨hkeeps, hstores⟩ | ⟨hkeeps, hfreed⟩
          · exact Or.inl ⟨.cons hrun hfrees hkeeps, hstores⟩
          · exact Or.inr ⟨fun h => hkeeps (h.2 _ _ _ hrun), hfreed⟩

/-- A life in memory is that of a pointer that is what it is worth, where the
same requests are served. -/
theorem DbufLifeAt.life {h₀ : Heap Cells} {p laterAt : DbufAt} {mem mem' : Blocks Cells}
    (h : DbufLifeAt calls p mem laterAt mem') (hp : Placed h₀ p buf mem.heap)
    (hastray : mem.astray = false) :
    mem'.astray = false ∧ ∃ l later, mem'.served = mem.served ++ l ∧
      (∀ rest, DbufLife calls buf (l ++ rest) later) ∧ Placed h₀ laterAt later mem'.heap := by
  induction h generalizing buf with
  | nil => exact ⟨hastray, [], buf, (List.append_nil _).symm, fun _ => .nil, hp⟩
  | @cons call calls p mid laterAt mem mem₁ mem₂ status hexec _ ih =>
      have hrun := dbufCallAt_refines hp call mem rfl hastray
      rw [hexec] at hrun
      cases hrun with
      | @value _ _ l _ hastray' hserved hcall hreturns =>
          cases hreturns with
          | mk hp' =>
              obtain ⟨hastray'', l', later, hserved', hlife, hlater⟩ := ih hp' hastray'
              refine ⟨hastray'', l ++ l', later, ?_, fun rest => ?_, hlater⟩
              · rw [hserved', hserved, List.append_assoc]
              · rw [List.append_assoc]
                exact .cons (hcall (l' ++ rest)) (hlife rest)

/-- The block, if there is one, is given back, unless it was before. -/
theorem dbufDestroyAt_exec {h₀ : Heap Cells} {p : DbufAt} {mem : Blocks Cells}
    (hp : Placed h₀ p buf mem.heap) : (dbufDestroyAt (some p)).exec mem =
      match dbufDestroy (some buf) with
      | .ok _ => (.ok (), { mem with heap := h₀ })
      | .error e => (.error e, mem) := by
  obtain ⟨b, n, top⟩ := p
  obtain ⟨b', n', top'⟩ := buf
  have hw := hp.b
  have hexec : (dbufDestroyAt (some { b := b, n := n, top := top })).exec mem
      = ((liftM (mem.heap.free b) : BlockM Cells (Heap Cells)) >>= fun h =>
          set { mem with heap := h }).exec mem := rfl
  rw [hexec]
  generalize hheap : mem.heap = h at hw
  cases hw with
  | null => rfl
  | live ha =>
      rw [Heap.free_some (Function.update_self ..), Function.update_idem,
        Function.update_eq_self_iff.mpr ha.symm]
      rfl
  | freed ha =>
      rw [Heap.free, ha]
      rfl

theorem Stores.destroy (h : Stores buf xs) : ∃ dead, dbufDestroy (some buf) = .ok dead := by
  obtain ⟨hnull, -⟩ | ⟨cells, hcells, -, -⟩ := h.block
  · rw [dbufDestroy, hnull]
    exact ⟨_, rfl⟩
  · rw [dbufDestroy, hcells]
    exact ⟨_, rfl⟩

end Life

/-- **The block is freed once**: after any calls, beside any other blocks and
whatever the allocator answered, `dbuf_destroy` leaves the heap as it was before
`dbuf_init`, just if no call has freed the block before; if one has, it is freed a
second time. -/
theorem dbufDestroy_frees_iff (initialN : BitVec 64) (calls : List DbufCall) (h₀ : Heap Cells)
    (answers : List (Option Addr)) (later : DbufAt) (mem : Blocks Cells)
    (h : DbufLifeAt calls (dbufInitAt initialN) { heap := h₀, answers := answers } later mem) :
    (RunKeeps calls (dbufInit initialN) mem.served ↔
      (dbufDestroyAt (some later)).exec mem = (.ok (), { mem with heap := h₀ })) ∧
    (¬ RunKeeps calls (dbufInit initialN) mem.served ↔
      (dbufDestroyAt (some later)).exec mem = (.error .dangling, mem)) := by
  have hinit : Placed h₀ (dbufInitAt initialN) (dbufInit initialN) h₀ := ⟨rfl, rfl, .null⟩
  obtain ⟨-, l, buf, hserved, hlife, hplaced⟩ := h.life hinit rfl
  have hcases := (hlife []).stores_or_freed (stores_dbufInit initialN)
  rw [List.append_nil, ← show mem.served = l from hserved] at hcases
  rw [dbufDestroyAt_exec hplaced]
  rcases hcases with ⟨hkeeps, ys, hys⟩ | ⟨hfrees, hb⟩
  · obtain ⟨dead, hdestroy⟩ := hys.destroy
    rw [hdestroy]
    exact ⟨iff_of_true hkeeps rfl, iff_of_false (not_not.mpr hkeeps) nofun⟩
  · have hdestroy : dbufDestroy (some buf) = .error .dangling := by
      rw [dbufDestroy, hb]
      rfl
    rw [hdestroy]
    exact ⟨iff_of_false hfrees nofun, iff_of_true hfrees rfl⟩

/-- Somebody else has a block. -/
def otherBlock : Heap Cells := Function.update Heap.empty 3 (some [some 9])

/-- One buffer is moved to another address and back; another one is grown to no
bytes, and then by a factor. -/
theorem dbufDestroy_frees_iff_moved :
    (∃ later mem, DbufLifeAt
        [.stack (.push (some ⟨[7], by decide⟩)), .stack (.push (some ⟨[8], by decide⟩)), .grow]
        (dbufInitAt 1) { heap := otherBlock, answers := [some 1, some 2, some 1] } later mem ∧
      (dbufDestroyAt (some later)).exec mem = (.ok (), { mem with heap := otherBlock })) ∧
    ∃ later mem, DbufLifeAt [.growTo 0, .grow] (dbufInitAt 0)
        { heap := otherBlock, answers := [some 1] } later mem ∧
      (dbufDestroyAt (some later)).exec mem = (.error .dangling, mem) := by
  constructor
  · have hlife : DbufLifeAt
        [.stack (.push (some ⟨[7], by decide⟩)), .stack (.push (some ⟨[8], by decide⟩)), .grow]
        (dbufInitAt 1) { heap := otherBlock, answers := [some 1, some 2, some 1] } _ _ :=
      .cons rfl (.cons rfl (.cons rfl .nil))
    refine ⟨_, _, hlife, (dbufDestroy_frees_iff 1 _ _ _ _ _ hlife).1.mp ?_⟩
    refine .cons rfl id (.cons rfl id (.cons rfl (fun hfrees => ?_) trivial))
    exact absurd hfrees.2 (by decide)
  · have hgrowTo : (dbufCall (.growTo 0) (some (dbufInit 0))).run []
        = .ok ((0, some { b := .live [], n := 0, top := 0 }), []) := rfl
    have hlife : DbufLifeAt [.growTo 0, .grow] (dbufInitAt 0)
        { heap := otherBlock, answers := [some 1] } _ _ := .cons rfl (.cons rfl .nil)
    refine ⟨_, _, hlife, (dbufDestroy_frees_iff 0 _ _ _ _ _ hlife).2.mp fun hkeeps => ?_⟩
    exact (hkeeps.2 _ _ _ hgrowTo).1 ⟨by decide, rfl⟩

end Jccl
