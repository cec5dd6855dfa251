/-
# `Jccl.Lib.Refines` — runs over memory against runs on values

A run over memory (`BlockM`) allocates, reads, writes and frees the blocks of a
heap; it takes a list with the answer to each request for memory to come, and
where the list is used up there is no memory.  A run on values (`AllocM`) knows
of memory only whether there is some for each of its requests.  The memory keeps
a list of what was served: those are the answers that the run on values gets.

`Refines R h m f`: whatever the answers are, the run `m` from the heap `h` comes
to the fault to which `f` comes, or to a result and a heap that `R` relates to
the result of `f`.  The rules go along the program: `Refines.bind` is that of
sequencing, `refines_loop` that of a loop.

An allocator may also do what a program takes for granted that it does not: one
that is told to make a block smaller may move it.  The memory remembers that
(`astray`), and then the run has to end at the assertion.

`Returned h`: NULL for nothing, or a new block beside those of `h`.  What a
call returned can be freed again (`Refines.dropping`), and is then not seen.
`Held h₀`: the variables of a client point to blocks of their own, and there is
no other block beside those of `h₀`.
-/
import Jccl.Lib.Alloc
import Jccl.Lib.Heap

namespace Jccl

/-- The live blocks, the answers to the requests to come, whether each request
so far was served, and whether a block that was made smaller did not stay where
it was. -/
structure Blocks (N : Type) where
  heap : Heap N
  answers : List (Option Addr)
  served : List Bool := []
  astray : Bool := false

/-- A run over memory, which is there also after a fault. -/
abbrev BlockM (N : Type) := ExceptT Fault (StateM (Blocks N))

namespace BlockM

variable {N α β σ : Type}

def exec (m : BlockM N α) (mem : Blocks N) : Outcome α × Blocks N := (ExceptT.run m).run mem

/-- `*p` -/
def load (p : Option Addr) : BlockM N N := do
  let mem ← get
  mem.heap.load p

/-- `*p = n` -/
def store (p : Option Addr) (n : N) : BlockM N Unit := do
  let mem ← get
  let h ← mem.heap.modify p fun _ => n
  set { mem with heap := h }

def malloc (n : N) : BlockM N (Option Addr) := do
  let mem ← get
  let (p, h) := mem.heap.malloc (mem.answers.headD none) n
  set { mem with heap := h, answers := mem.answers.tail, served := mem.served ++ [p.isSome] }
  return p

def free (p : Option Addr) : BlockM N Unit := do
  let mem ← get
  let h ← mem.heap.free p
  set { mem with heap := h }

/-- `realloc(p, …)` to a smaller size, at which the block holds `n`. -/
def shrink (p : Option Addr) (n : N) : BlockM N (Option Addr) := do
  let mem ← get
  let _ ← mem.heap.load p
  let (q, h) := mem.heap.realloc (mem.answers.headD none) (p.getD 0) n
  set { mem with
    heap := h, answers := mem.answers.tail, astray := mem.astray || decide (q ≠ p) }
  return q

/-- What is computed from `*p` is written there, and something else comes with it. -/
def update (p : Option Addr) (f : N → Outcome (N × σ)) : BlockM N σ := do
  let n ← load p
  let (n, s) ← f n
  store p n
  return s

/-- `for (i = 0; i < n; i++) s = f(i, s);` -/
def loop (f : Nat → σ → BlockM N σ) : Nat → σ → BlockM N σ
  | 0, s => pure s
  | n + 1, s => do
      let s ← loop f n s
      f n s

theorem exec_bind_ok {m : BlockM N α} {x : α} {mem mem' : Blocks N}
    (h : m.exec mem = (.ok x, mem')) (g : α → BlockM N β) :
    (m >>= g).exec mem = (g x).exec mem' := by
  show (ExceptT.run (m >>= g)).run mem = _
  rw [ExceptT.run_bind, StateT.run_bind, show (ExceptT.run m).run mem = _ from h]
  rfl

theorem exec_bind_error {m : BlockM N α} {e : Fault} {mem mem' : Blocks N}
    (h : m.exec mem = (.error e, mem')) (g : α → BlockM N β) :
    (m >>= g).exec mem = (.error e, mem') := by
  show (ExceptT.run (m >>= g)).run mem = _
  rw [ExceptT.run_bind, StateT.run_bind, show (ExceptT.run m).run mem = _ from h]
  rfl

end BlockM

variable {N α β : Type}

/-- What a run over memory comes to, beside the run on values that gets as its
answers what was served. -/
inductive Agrees (R : α → β → Heap N → Prop) (f : AllocM β) (served : List Bool) :
    Outcome α × Blocks N → Prop
  | astray {mem} : mem.astray = true → Agrees R f served (.error .assertion, mem)
  | fault {e l mem} : mem.astray = false → mem.served = served ++ l →
      (∀ rest, f.run (l ++ rest) = .error e) → Agrees R f served (.error e, mem)
  | value {x y l mem} : mem.astray = false → mem.served = served ++ l →
      (∀ rest, f.run (l ++ rest) = .ok (y, rest)) → R x y mem.heap →
      Agrees R f served (.ok x, mem)

def Refines (R : α → β → Heap N → Prop) (h : Heap N) (m : BlockM N α) (f : AllocM β) : Prop :=
  ∀ mem, mem.heap = h → mem.astray = false → Agrees R f mem.served (m.exec mem)

/-! ## Sequencing -/

theorem AllocM.lift_bind (x : Outcome α) (f : α → Outcome β) :
    (liftM (x >>= f) : AllocM β) = (liftM x : AllocM α) >>= fun a => liftM (f a) := by
  cases x <;> rfl

section Sequencing

variable {α' β' : Type} {R : α → β → Heap N → Prop} {S : α' → β' → Heap N → Prop} {h : Heap N}

theorem refines_pure {x : α} {y : β} (hR : R x y h) : Refines R h (pure x) (pure y) := by
  rintro mem rfl hastray
  exact .value (l := []) hastray (List.append_nil _).symm (fun _ => rfl) hR

theorem refines_throw (e : Fault) : Refines R h (throw e) (throw e) := by
  rintro mem rfl hastray
  exact .fault (l := []) hastray (List.append_nil _).symm fun _ => rfl

theorem Refines.bind {m : BlockM N α} {f : AllocM β} {g : α → BlockM N α'} {k : β → AllocM β'}
    (hm : Refines R h m f) (hg : ∀ x y h', R x y h' → Refines S h' (g x) (k y)) :
    Refines S h (m >>= g) (f >>= k) := by
  intro mem hmem hastray
  have hrun := hm mem hmem hastray
  generalize hout : m.exec mem = out at hrun
  cases hrun with
  | astray hastray' =>
      rw [BlockM.exec_bind_error hout]
      exact .astray hastray'
  | @fault e l mem' hastray' hserved hf =>
      rw [BlockM.exec_bind_error hout]
      refine .fault hastray' hserved fun rest => ?_
      rw [StateT.run_bind, hf]
      rfl
  | @value x y l mem' hastray' hserved hf hR =>
      rw [BlockM.exec_bind_ok hout]
      have hrest := hg x y mem'.heap hR mem' rfl hastray'
      -- the requests of the first run, and then those of the second
      have hseq : ∀ l' rest, (f >>= k).run ((l ++ l') ++ rest)
          = (k y).run (l' ++ rest) := by
        intro l' rest
        rw [StateT.run_bind, List.append_assoc, hf, Outcome.ok_bind]
      have hboth : ∀ {served l' : List Bool}, served = mem'.served ++ l' →
          served = mem.served ++ (l ++ l') := by
        rintro _ l' rfl
        rw [hserved, List.append_assoc]
      generalize (g x).exec mem' = out at hrest
      cases hrest with
      | astray hastray'' => exact .astray hastray''
      | @fault e l' _ hastray'' hserved' hk =>
          exact .fault hastray'' (hboth hserved') fun rest => (hseq l' rest).trans (hk rest)
      | @value x' y' l' _ hastray'' hserved' hk hS =>
          exact .value hastray'' (hboth hserved') (fun rest => (hseq l' rest).trans (hk rest)) hS

theorem Refines.mono {S : α → β → Heap N → Prop} {m : BlockM N α} {f : AllocM β}
    (hm : Refines R h m f) (hRS : ∀ x y h', R x y h' → S x y h') : Refines S h m f := by
  have hbind := hm.bind (g := pure) (k := pure) fun x y h' hR => refines_pure (hRS x y h' hR)
  rwa [bind_pure, bind_pure] at hbind

/-- What only the run over memory does at the end. -/
theorem Refines.andThen {S : α' → β → Heap N → Prop} {m : BlockM N α} {f : AllocM β}
    {g : α → BlockM N α'} (hm : Refines R h m f)
    (hg : ∀ x y h', R x y h' → Refines S h' (g x) (pure y)) : Refines S h (m >>= g) f := by
  have hbind := hm.bind (k := pure) hg
  rwa [bind_pure] at hbind

theorem refines_lift_bind {γ : Type} {x : Outcome γ} {g : γ → BlockM N α} {k : γ → AllocM β}
    (hg : ∀ c, x = .ok c → Refines R h (g c) (k c)) :
    Refines R h ((liftM x : BlockM N γ) >>= g) ((liftM x : AllocM γ) >>= k) := by
  cases x with
  | error e =>
      rintro mem rfl hastray
      exact .fault (l := []) hastray (List.append_nil _).symm fun _ => rfl
  | ok c => exact fun mem hmem hastray => hg c rfl mem hmem hastray

/-- A loop keeps what each iteration keeps. -/
theorem refines_loop {σ τ : Type} {body : Nat → σ → BlockM N σ} {step : Nat → τ → Outcome τ}
    {I : σ → τ → Heap N → Prop} (hstep : ∀ i s t h', I s t h' →
      Refines I h' (body i s) (liftM (step i t))) (n : Nat) {s : σ} {t : τ} (hI : I s t h) :
    Refines I h (BlockM.loop body n s) (liftM (forLoop step n t)) := by
  induction n with
  | zero => exact refines_pure hI
  | succ n ih =>
      rw [BlockM.loop, forLoop, AllocM.lift_bind]
      exact ih.bind fun s' t' h' hI' => hstep n s' t' h' hI'

end Sequencing

/-! ## The operations on blocks -/

section Blocks

variable {R : α → β → Heap N → Prop} {h : Heap N} {a : Addr} {n : N}

theorem refines_load {g : N → BlockM N α} {f : AllocM β} (ha : h a = some n)
    (hg : Refines R h (g n) f) : Refines R h (BlockM.load (some a) >>= g) f := by
  rintro mem rfl hastray
  have hload : (BlockM.load (some a) : BlockM N N).exec mem = (.ok n, mem) := by
    show (liftM (mem.heap.load (some a)) : BlockM N N).exec mem = _
    rw [Heap.load_some ha]
    rfl
  rw [BlockM.exec_bind_ok hload]
  exact hg mem rfl hastray

/-- A block that is not live is read on neither side. -/
theorem refines_dangling {g : N → BlockM N α} {f : AllocM β} (ha : h a = none)
    (hf : ∀ answers, f.run answers = .error .dangling) :
    Refines R h (BlockM.load (some a) >>= g) f := by
  rintro mem rfl hastray
  have hload : (BlockM.load (some a) : BlockM N N).exec mem = (.error .dangling, mem) := by
    show (liftM (mem.heap.load (some a)) : BlockM N N).exec mem = _
    rw [Heap.load, ha]
    rfl
  rw [BlockM.exec_bind_error hload]
  exact .fault (l := []) hastray (List.append_nil _).symm fun _ => hf _

/-- An operation that only changes the heap. -/
theorem refines_exec {γ : Type} {m : BlockM N γ} {x : γ} {h' : Heap N} {g : γ → BlockM N α}
    {f : AllocM β} (hm : ∀ mem, mem.heap = h → m.exec mem = (.ok x, { mem with heap := h' }))
    (hg : Refines R h' (g x) f) : Refines R h (m >>= g) f := by
  intro mem hmem hastray
  rw [BlockM.exec_bind_ok (hm mem hmem)]
  exact hg { mem with heap := h' } rfl hastray

theorem refines_store {n' : N} {g : Unit → BlockM N α} {f : AllocM β} (ha : h a = some n)
    (hg : Refines R (Function.update h a (some n')) (g ()) f) :
    Refines R h (BlockM.store (some a) n' >>= g) f := by
  refine refines_exec ?_ hg
  rintro mem rfl
  show ((liftM (mem.heap.modify (some a) fun _ => n') : BlockM N (Heap N)) >>= fun h =>
    set { mem with heap := h }).exec mem = _
  rw [Heap.modify_some _ ha]
  rfl

theorem refines_free {g : Unit → BlockM N α} {f : AllocM β} (ha : h a = some n)
    (hg : Refines R (Function.update h a none) (g ()) f) :
    Refines R h (BlockM.free (some a) >>= g) f := by
  refine refines_exec ?_ hg
  rintro mem rfl
  show ((liftM (mem.heap.free (some a)) : BlockM N (Heap N)) >>= fun h =>
    set { mem with heap := h }).exec mem = _
  rw [Heap.free_some ha]
  rfl

/-- A block that is made smaller is written to in its place, or the assertion
that it was not moved fails. -/
theorem refines_shrink {n' : N} {R : Unit → β → Heap N → Prop} {y : β} (ha : h a = some n)
    (hR : R () y (Function.update h a (some n'))) :
    Refines R h (do
      let q ← BlockM.shrink (some a) n'
      assert (q = some a)) (pure y) := by
  rintro mem rfl hastray
  have hshrink : (BlockM.shrink (some a) n').exec mem
      = (.ok (mem.heap.realloc (mem.answers.headD none) a n').1, { mem with
          heap := (mem.heap.realloc (mem.answers.headD none) a n').2
          answers := mem.answers.tail
          astray := mem.astray ||
            decide ((mem.heap.realloc (mem.answers.headD none) a n').1 ≠ some a) }) := by
    show ((liftM (mem.heap.load (some a)) : BlockM N N) >>= _).exec mem = _
    rw [Heap.load_some ha]
    rfl
  rw [BlockM.exec_bind_ok hshrink]
  have hcases := Heap.realloc_cases mem.heap a (mem.answers.headD none) n'
  rcases hcases with ⟨-, hstay⟩ | ⟨b, hba, -, -, hmoved⟩ | ⟨-, hrefused⟩
  · rw [hstay]
    dsimp only
    rw [assert_of rfl]
    have hkept : (mem.astray || decide (some a ≠ some a)) = false := by
      rw [hastray, Bool.false_or]
      exact decide_eq_false (not_not.mpr rfl)
    exact .value (l := []) hkept (List.append_nil _).symm (fun _ => rfl) hR
  · rw [hmoved]
    dsimp only
    have hne : some b ≠ some a := fun heq => hba (Option.some.inj heq)
    rw [assert_not hne]
    refine .astray ?_
    show (mem.astray || decide (some b ≠ some a)) = true
    rw [decide_eq_true hne, Bool.or_true]
  · rw [hrefused]
    dsimp only
    rw [assert_not (Option.some_ne_none a).symm]
    exact .astray (Bool.or_true _)

end Blocks

/-! ## Pointers -/

/-- NULL, or a live block that holds the value. -/
inductive PointsTo (h : Heap N) : Option Addr → Option N → Prop
  | null : PointsTo h none none
  | block {a n} : h a = some n → PointsTo h (some a) (some n)

/-- NULL for nothing, or a block that was not live, with the value. -/
inductive Returned (h : Heap N) : Option Addr → Option N → Heap N → Prop
  | null : Returned h none none h
  | block {a n} : h a = none → Returned h (some a) (some n) (Function.update h a (some n))

section Pointers

variable {h h' : Heap N} {p q : Option Addr} {o o' : Option N}

theorem PointsTo.live {a : Addr} (hp : PointsTo h (some a) o) : ∃ n, o = some n ∧ h a = some n := by
  cases hp with
  | block ha => exact ⟨_, rfl, ha⟩

theorem Returned.pointsTo (hr : Returned h p o h') : PointsTo h' p o := by
  cases hr with
  | null => exact .null
  | block ha => exact .block (Function.update_self ..)

/-- The answer that the run on values gets is whether there was a block. -/
theorem refines_malloc (n : N) : Refines (Returned h) h (BlockM.malloc n)
    (do if ← allocates then return some n else return none) := by
  rintro mem rfl hastray
  have hmalloc : (BlockM.malloc n : BlockM N (Option Addr)).exec mem
      = (.ok (mem.heap.malloc (mem.answers.headD none) n).1, { mem with
          heap := (mem.heap.malloc (mem.answers.headD none) n).2
          answers := mem.answers.tail
          served := mem.served ++ [(mem.heap.malloc (mem.answers.headD none) n).1.isSome] }) := rfl
  rw [hmalloc]
  cases hg : Heap.grants mem.heap (mem.answers.headD none) with
  | false =>
      rw [Heap.malloc_of_not_grants hg]
      exact .value (l := [false]) hastray rfl (fun _ => rfl) .null
  | true =>
      obtain ⟨a, -, ha, hblock⟩ := Heap.malloc_of_grants (n := n) hg
      rw [hblock]
      exact .value (l := [true]) hastray rfl (fun _ => rfl) (.block ha)

theorem PointsTo.value_none (hp : PointsTo h none o) : o = none := by
  cases hp
  rfl

theorem PointsTo.update {a : Addr} (hp : PointsTo h p o) (hne : p ≠ some a) (x : Option N) :
    PointsTo (Function.update h a x) p o := by
  cases hp with
  | null => exact .null
  | block hb =>
      refine .block ?_
      rw [Function.update_of_ne fun hba => hne (congrArg some hba)]
      exact hb

theorem Returned.of_some {a : Addr} (hr : Returned h p o h') (hp : p = some a) : h a = none := by
  subst hp
  cases hr with
  | block ha => exact ha

/-- Blocks are where they were when another one was allocated. -/
theorem Returned.live {a : Addr} {n : N} (hr : Returned h p o h') (ha : h a = some n) :
    h' a = some n := by
  cases hr with
  | null => exact ha
  | block hc => exact Heap.live_update _ ha hc

/-- What another call returned is another block. -/
theorem PointsTo.returned (hp : PointsTo h p o) (hr : Returned h q o' h') : PointsTo h' p o := by
  cases hp with
  | null => exact .null
  | block ha => exact .block (hr.live ha)

/-! ## A block that was returned is filled -/

theorem Returned.write {a : Addr} {n : N} (hr : Returned h (some a) (some n) h') (n' : N) :
    h' a = some n ∧ Returned h (some a) (some n') (Function.update h' a (some n')) := by
  cases hr with
  | block ha =>
      rw [Function.update_idem]
      exact ⟨Function.update_self .., .block ha⟩

/-- The block of the run over memory is a value of the run on values. -/
theorem refines_update {σ : Type} {a : Addr} {n : N} {f : N → Outcome (N × σ)}
    (hr : Returned h (some a) (some n) h') :
    Refines (fun s t h'' => s = t.2 ∧ Returned h (some a) (some t.1) h'') h'
      (BlockM.update (some a) f) (liftM (f n) : AllocM (N × σ)) := by
  refine refines_load (hr.write n).1 ?_
  rw [← bind_pure (liftM (f n) : AllocM (N × σ))]
  refine refines_lift_bind fun c _ => ?_
  exact refines_store (hr.write n).1 (refines_pure ⟨rfl, (hr.write c.1).2⟩)

/-- The same, where nothing comes with it. -/
theorem refines_write {a : Addr} {n : N} {g : N → Outcome (N × Unit)} {x : Outcome N}
    (hr : Returned h (some a) (some n) h') (hg : g n = do return (← x, ())) :
    Refines (fun _ n' => Returned h (some a) (some n')) h' (BlockM.update (some a) g)
      (liftM x : AllocM N) := by
  have hlift : (liftM x : AllocM N) = liftM (g n) >>= fun c => pure c.1 := by
    rw [hg]
    cases x <;> rfl
  rw [hlift, ← bind_pure (BlockM.update (some a) g)]
  exact (refines_update hr).bind fun _ _ _ hr' => refines_pure hr'.2

theorem Returned.free {a : Addr} (hr : Returned h (some a) o h') :
    Function.update h' a none = h := by
  cases hr with
  | block ha =>
      rw [Function.update_idem]
      exact Function.update_eq_self_iff.mpr ha.symm

/-- A block that was returned is given up. -/
theorem refines_drop {a : Addr} {n : N} (hr : Returned h (some a) (some n) h') :
    Refines (Returned h) h' (do BlockM.free (some a); return none) (pure none) := by
  refine refines_free (hr.write n).1 (refines_pure ?_)
  rw [hr.free]
  exact .null

/-- A temporary is freed after the call that used it. -/
theorem Refines.dropping {m : BlockM N (Option Addr)} {f : AllocM (Option N)}
    (hr : Returned h p o h') (hm : Refines (Returned h') h' m f) :
    Refines (Returned h) h' (do let r ← m; BlockM.free p; return r) f := by
  refine hm.andThen fun q x h'' hq => ?_
  cases hr with
  | null => exact refines_pure hq
  | @block a n ha =>
      have hfree : Function.update h a none = h := Function.update_eq_self_iff.mpr ha.symm
      cases hq with
      | null =>
          refine refines_free (Function.update_self a (some n) h) (refines_pure ?_)
          rw [Function.update_idem, hfree]
          exact .null
      | @block b m hb =>
          have hab : a ≠ b := by
            intro hab
            rw [← hab, Function.update_self] at hb
            cases hb
          rw [Function.update_of_ne hab.symm] at hb
          refine refines_free (n := n) ?_ (refines_pure ?_)
          · rw [Function.update_of_ne hab, Function.update_self]
          · rw [Function.update_comm hab, Function.update_idem, Function.update_comm hab.symm, hfree]
            exact .block hb

end Pointers

/-! ## Variables -/

/-- What is live beside `h₀` is one block for each variable that is not NULL. -/
structure Held {V : Type} (h₀ : Heap N) (vars : V → Option Addr) (values : V → Option N)
    (h : Heap N) : Prop where
  points : ∀ i, PointsTo h (vars i) (values i)
  distinct : ∀ i j a, vars i = some a → vars j = some a → i = j
  fresh : ∀ i a, vars i = some a → h₀ a = none
  frame : ∀ a, (∀ i, vars i ≠ some a) → h a = h₀ a

namespace Held

variable {V : Type} {h₀ h h' : Heap N} {vars : V → Option Addr} {values : V → Option N}

theorem nil (h : Heap N) : Held h (fun _ : V => none) (fun _ => none) h where
  points _ := .null
  distinct _ _ _ hi := by cases hi
  fresh _ _ hi := by cases hi
  frame _ _ := rfl

/-- Nothing is held in variables that are all NULL. -/
theorem eq (hh : Held h₀ vars values h) (hnull : ∀ i, vars i = none) : h = h₀ := by
  funext a
  refine hh.frame a fun i hi => ?_
  cases (hnull i).symm.trans hi

/-- What was live before is not held. -/
theorem of_live (hh : Held h₀ vars values h) {a : Addr} {n : N} (ha : h₀ a = some n) :
    h a = some n := by
  refine (hh.frame a fun i hi => ?_).trans ha
  cases (hh.fresh i a hi).symm.trans ha

/-- A block that is not live is in no variable. -/
theorem ne_of_none (hh : Held h₀ vars values h) {a : Addr} (ha : h a = none) (i : V) :
    vars i ≠ some a := by
  intro hi
  have hp := hh.points i
  rw [hi] at hp
  obtain ⟨n, -, hn⟩ := hp.live
  cases ha.symm.trans hn

variable [DecidableEq V]

/-- What a call returned is held in a variable that was NULL. -/
theorem assign (hh : Held h₀ vars values h) {k : V} (hk : vars k = none) {p : Option Addr}
    {o : Option N} (hr : Returned h p o h') :
    Held h₀ (Function.update vars k p) (Function.update values k o) h' where
  points i := by
    by_cases hi : i = k
    · rw [hi, Function.update_self, Function.update_self]
      exact hr.pointsTo
    · rw [Function.update_of_ne hi, Function.update_of_ne hi]
      exact (hh.points i).returned hr
  distinct i j a hi hj := by
    rw [Function.update_apply] at hi hj
    split at hi <;> split at hj
    · rename_i hik hjk
      exact hik.trans hjk.symm
    · exact absurd hj (hh.ne_of_none (hr.of_some hi) j)
    · exact absurd hi (hh.ne_of_none (hr.of_some hj) i)
    · exact hh.distinct i j a hi hj
  fresh i a hi := by
    rw [Function.update_apply] at hi
    split at hi
    · have ha := hr.of_some hi
      exact (hh.frame a (hh.ne_of_none ha)).symm.trans ha
    · exact hh.fresh i a hi
  frame a ha := by
    have hpa : p ≠ some a := by
      have := ha k
      rwa [Function.update_self] at this
    have hold : h a = h₀ a := by
      refine hh.frame a fun i hi => ha i ?_
      rw [Function.update_of_ne fun hik => by rw [hik, hk] at hi; cases hi]
      exact hi
    cases hr with
    | null => exact hold
    | block hb =>
        rw [Function.update_of_ne fun hab => hpa (congrArg some hab.symm)]
        exact hold

theorem of_update_none {i k : V} {a : Addr} (hi : Function.update vars k none i = some a) :
    vars i = some a := by
  by_cases hik : i = k
  · rw [hik, Function.update_self] at hi
    cases hi
  · rwa [Function.update_of_ne hik] at hi

/-- A variable is freed and set to NULL. -/
theorem free (hh : Held h₀ vars values h) {k : V} {a : Addr} (hk : vars k = some a) :
    Held h₀ (Function.update vars k none) (Function.update values k none)
      (Function.update h a none) where
  points i := by
    by_cases hi : i = k
    · rw [hi, Function.update_self, Function.update_self]
      exact .null
    · rw [Function.update_of_ne hi, Function.update_of_ne hi]
      exact (hh.points i).update (fun hia => hi (hh.distinct i k a hia hk)) none
  distinct i j b hi hj := hh.distinct i j b (of_update_none hi) (of_update_none hj)
  fresh i b hi := hh.fresh i b (of_update_none hi)
  frame b hb := by
    by_cases hba : b = a
    · rw [hba, Function.update_self]
      exact (hh.fresh k a hk).symm
    · rw [Function.update_of_ne hba]
      refine hh.frame b fun i hi => ?_
      by_cases hik : i = k
      · rw [hik, hk] at hi
        exact hba (Option.some.inj hi).symm
      · exact hb i (by rw [Function.update_of_ne hik]; exact hi)

end Held

end Jccl
