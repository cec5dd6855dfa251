/-
# `Jccl.Lib.Mutex` — threads that run sections of code under mutexes

Every thread has calls to make, one after the other.  A call locks one mutex,
or none, and what it does until it unlocks is a sequence of steps between
which any other thread may run.  Nothing is nested: no call locks a mutex
while it holds one.

A mutex `protects` a view of the shared state when the sections under other
mutexes leave the view alone, and those under this one read nothing else.
Three results:

  * `Run.serial`: whatever the schedule, the view is what the completed calls
    make of it when they are run alone, in the order in which they completed,
    and then what the holder of the mutex has done so far;
  * `Run.progress`: as long as no step faults, some thread can go on, or all
    have made their calls;
  * `Run.length_le`: a cost that every step brings down bounds the schedules.
-/
import Jccl.Lib.Fault

namespace Jccl

/-- `step` is what a call does between two points at which another thread may
run; after the last one the mutex is unlocked. -/
structure Sections (Call Local Shared : Type) where
  mutex : Call → Option Nat
  enter : Call → Local
  step : Call → Local → Shared → Outcome (Option Local × Shared)

/-- The calls to come, of which the first may be under way. -/
structure Thread (Call Local : Type) where
  calls : List Call
  inside : Option Local

structure Threads (ι Call Local Shared : Type) where
  thread : ι → Thread Call Local
  owner : Nat → Option ι
  shared : Shared

section Turns

variable {ι Call Local Shared : Type} [DecidableEq ι] (S : Sections Call Local Shared)

/-- Thread `t` goes on, and completes the calls in the list, of which there is
at most one. -/
inductive Turn (t : ι) : Threads ι Call Local Shared → List Call →
    Threads ι Call Local Shared → Prop
  | skip {s : Threads ι Call Local Shared} {call : Call} {calls : List Call} :
      s.thread t = ⟨call :: calls, none⟩ → S.mutex call = none →
      Turn t s [call] { s with thread := Function.update s.thread t ⟨calls, none⟩ }
  | lock {s : Threads ι Call Local Shared} {call : Call} {calls : List Call} {m : Nat} :
      s.thread t = ⟨call :: calls, none⟩ → S.mutex call = some m → s.owner m = none →
      Turn t s [] { s with
        thread := Function.update s.thread t ⟨call :: calls, some (S.enter call)⟩
        owner := Function.update s.owner m (some t) }
  | step {s : Threads ι Call Local Shared} {call : Call} {calls : List Call} {l l' : Local}
      {shared : Shared} :
      s.thread t = ⟨call :: calls, some l⟩ → S.step call l s.shared = .ok (some l', shared) →
      Turn t s [] { s with
        thread := Function.update s.thread t ⟨call :: calls, some l'⟩
        shared := shared }
  | unlock {s : Threads ι Call Local Shared} {call : Call} {calls : List Call} {l : Local}
      {m : Nat} {shared : Shared} :
      s.thread t = ⟨call :: calls, some l⟩ → S.mutex call = some m →
      S.step call l s.shared = .ok (none, shared) →
      Turn t s [call]
        { thread := Function.update s.thread t ⟨calls, none⟩
          owner := Function.update s.owner m none
          shared := shared }

/-- The schedule says who goes on, and the log which calls were completed. -/
inductive Run (s : Threads ι Call Local Shared) :
    List ι → List (ι × Call) → Threads ι Call Local Shared → Prop
  | start : Run s [] [] s
  | turn {schedule : List ι} {log : List (ι × Call)} {s₁ s₂ : Threads ι Call Local Shared} {t : ι}
      {done : List Call} : Run s schedule log s₁ → Turn S t s₁ done s₂ →
      Run s (schedule ++ [t]) (log ++ done.map (t, ·)) s₂

/-- Nobody has begun. -/
def Threads.start (programs : ι → List Call) (shared : Shared) : Threads ι Call Local Shared :=
  { thread := fun t => ⟨programs t, none⟩, owner := fun _ => none, shared := shared }

/-- Everybody is through. -/
def Threads.Finished (s : Threads ι Call Local Shared) : Prop :=
  ∀ t, s.thread t = ⟨[], none⟩

/-- The calls of one thread in a log. -/
def callsOf (t : ι) (log : List (ι × Call)) : List Call :=
  (log.filter fun e => e.1 = t).map Prod.snd

/-- The calls under one mutex in a log. -/
def callsUnder (m : Nat) (log : List (ι × Call)) : List Call :=
  (log.map Prod.snd).filter fun call => S.mutex call = some m

end Turns

section Exclusion

variable {ι Call Local Shared : Type} {S : Sections Call Local Shared}
  {s s' : Threads ι Call Local Shared} {t : ι}

/-! ## At most one thread is inside -/

/-- The owner of a mutex is the thread that is inside a section under it. -/
def Exclusive (S : Sections Call Local Shared) (s : Threads ι Call Local Shared) : Prop :=
  (∀ t l, (s.thread t).inside = some l → ∃ call calls m, (s.thread t).calls = call :: calls ∧
    S.mutex call = some m ∧ s.owner m = some t) ∧
  ∀ m t, s.owner m = some t → ∃ call calls l, s.thread t = ⟨call :: calls, some l⟩ ∧
    S.mutex call = some m

theorem exclusive_start (programs : ι → List Call) (shared : Shared) :
    Exclusive S (Threads.start programs shared) :=
  ⟨fun _ _ h => (by cases h), fun _ _ h => (by cases h)⟩

/-- The mutex of a section that a thread is inside. -/
theorem Exclusive.owner (h : Exclusive S s) {call : Call} {calls : List Call} {l : Local} {m : Nat}
    (hthread : s.thread t = ⟨call :: calls, some l⟩) (hmutex : S.mutex call = some m) :
    s.owner m = some t := by
  obtain ⟨call', calls', m', hcalls, hmutex', howner⟩ := h.1 t l (by rw [hthread])
  rw [hthread] at hcalls
  obtain ⟨rfl, rfl⟩ := List.cons.inj hcalls
  cases hmutex.symm.trans hmutex'
  exact howner

/-- A thread that is outside owns nothing. -/
theorem Exclusive.not_owner (h : Exclusive S s) (hinside : (s.thread t).inside = none)
    (m : Nat) : s.owner m ≠ some t := by
  intro howner
  obtain ⟨call, calls, l, hthread, -⟩ := h.2 m t howner
  rw [hthread] at hinside
  cases hinside

/-- A thread owns at most one mutex. -/
theorem Exclusive.eq_of_owner (h : Exclusive S s) {m m' : Nat} (hm : s.owner m = some t)
    (hm' : s.owner m' = some t) : m = m' := by
  obtain ⟨call, calls, l, hthread, hmutex⟩ := h.2 m t hm
  obtain ⟨call', calls', l', hthread', hmutex'⟩ := h.2 m' t hm'
  cases hthread.symm.trans hthread'
  exact Option.some.inj (hmutex.symm.trans hmutex')

/-- What has to be seen of a turn: the thread itself. -/
theorem Exclusive.of_turn (h : Exclusive S s) (hne : ∀ u, u ≠ t → s'.thread u = s.thread u)
    (howner : ∀ u m, u ≠ t → (s'.owner m = some u ↔ s.owner m = some u))
    (hinside : ∀ l, (s'.thread t).inside = some l → ∃ call calls m,
      (s'.thread t).calls = call :: calls ∧ S.mutex call = some m ∧ s'.owner m = some t)
    (hown : ∀ m, s'.owner m = some t → ∃ call calls l, s'.thread t = ⟨call :: calls, some l⟩ ∧
      S.mutex call = some m) : Exclusive S s' := by
  constructor
  · intro u l hl
    by_cases hu : u = t
    · exact hu ▸ hinside l (hu ▸ hl)
    · rw [hne u hu] at hl ⊢
      obtain ⟨call, calls, m, hcalls, hmutex, hm⟩ := h.1 u l hl
      exact ⟨call, calls, m, hcalls, hmutex, (howner u m hu).mpr hm⟩
  · intro m u hm
    by_cases hu : u = t
    · exact hu ▸ hown m (hu ▸ hm)
    · rw [hne u hu]
      exact h.2 m u ((howner u m hu).mp hm)

end Exclusion

section Program

variable {ι Call Local Shared : Type} [DecidableEq ι] {S : Sections Call Local Shared}
  {s s' : Threads ι Call Local Shared} {schedule : List ι} {log : List (ι × Call)} {t : ι}
  {done : List Call}

/-! ## Every thread makes its calls, in its order -/

theorem callsOf_append (log log' : List (ι × Call)) :
    callsOf t (log ++ log') = callsOf t log ++ callsOf t log' := by
  rw [callsOf, List.filter_append, List.map_append, callsOf, callsOf]

theorem callsOf_self (done : List Call) : callsOf t (done.map (t, ·)) = done := by
  have hall : ∀ e ∈ done.map (t, ·), decide (e.1 = t) = true := by simp
  rw [callsOf, List.filter_eq_self.mpr hall, List.map_map, Function.comp_def, List.map_id']

theorem callsOf_other {u : ι} (h : u ≠ t) (done : List Call) :
    callsOf u (done.map (t, ·)) = [] := by
  have hnone : ∀ e ∈ done.map (t, ·), ¬ decide (e.1 = u) = true := by simp [h.symm]
  rw [callsOf, List.filter_eq_nil_iff.mpr hnone, List.map_nil]

/-- A turn leaves the other threads as they are. -/
theorem Turn.thread_of_ne (h : Turn S t s done s') {u : ι} (hu : u ≠ t) :
    s'.thread u = s.thread u := by
  cases h with
  | skip _ _ => exact Function.update_of_ne hu _ _
  | lock _ _ _ => exact Function.update_of_ne hu _ _
  | step _ _ => exact Function.update_of_ne hu _ _
  | unlock _ _ _ => exact Function.update_of_ne hu _ _

theorem Turn.calls (h : Turn S t s done s') :
    (s.thread t).calls = done ++ (s'.thread t).calls := by
  cases h with
  | skip hthread _ => simp [hthread]
  | lock hthread _ _ => simp [hthread]
  | step hthread _ => simp [hthread]
  | unlock hthread _ _ => simp [hthread]

/-- No call is lost, made twice or made out of order. -/
theorem Run.calls (h : Run S s schedule log s') (u : ι) :
    (s.thread u).calls = callsOf u log ++ (s'.thread u).calls := by
  induction h with
  | start => exact (List.nil_append _).symm
  | @turn schedule log s₁ s₂ t done _ hturn ih =>
      rw [ih, callsOf_append, List.append_assoc]
      by_cases hu : u = t
      · rw [hu, callsOf_self, hturn.calls]
      · rw [callsOf_other hu, hturn.thread_of_ne hu, List.nil_append]

theorem Exclusive.turn (h : Exclusive S s) (hturn : Turn S t s done s') : Exclusive S s' := by
  have hne := fun u (hu : u ≠ t) => hturn.thread_of_ne hu
  cases hturn with
  | skip hthread hmutex =>
      refine h.of_turn hne (fun u m _ => Iff.rfl) (fun l hl => ?_) (fun m hm => ?_)
      · simp only [Function.update_self] at hl
        cases hl
      · exact absurd hm (h.not_owner (congrArg Thread.inside hthread) m)
  | @lock call calls m hthread hmutex hfree =>
      have hnot := h.not_owner (congrArg Thread.inside hthread)
      refine h.of_turn hne (fun u m' hu => ?_) (fun l hl => ?_) (fun m' hm' => ?_)
      · by_cases hm : m' = m
        · simp only [hm, Function.update_self, hfree]
          exact ⟨fun h => absurd (Option.some.inj h).symm hu, fun h => (by cases h)⟩
        · simp only [Function.update_of_ne hm]
      · exact ⟨call, calls, m, congrArg Thread.calls (Function.update_self t _ s.thread), hmutex,
          Function.update_self ..⟩
      · by_cases hm : m' = m
        · exact ⟨call, calls, S.enter call, Function.update_self .., hm ▸ hmutex⟩
        · simp only [Function.update_of_ne hm] at hm'
          exact absurd hm' (hnot m')
  | @step call calls l l' shared hthread hstep =>
      refine h.of_turn hne (fun u m _ => Iff.rfl) (fun l₁ _ => ?_) (fun m hm => ?_)
      · obtain ⟨call', calls', m, hcalls, hmutex, hm⟩ := h.1 t l (by rw [hthread])
        rw [hthread] at hcalls
        exact ⟨call', calls', m, (congrArg Thread.calls (Function.update_self t _ s.thread)).trans hcalls,
          hmutex, hm⟩
      · obtain ⟨call', calls', l₁, hthread', hmutex⟩ := h.2 m t hm
        cases hthread.symm.trans hthread'
        exact ⟨call, calls, l', Function.update_self .., hmutex⟩
  | @unlock call calls l m shared hthread hmutex hstep =>
      have hm := h.owner hthread hmutex
      refine h.of_turn hne (fun u m' hu => ?_) (fun l₁ hl => ?_) (fun m' hm' => ?_)
      · by_cases heq : m' = m
        · simp only [heq, Function.update_self, hm]
          exact ⟨fun h => (by cases h), fun h => absurd (Option.some.inj h).symm hu⟩
        · simp only [Function.update_of_ne heq]
      · simp only [Function.update_self] at hl
        cases hl
      · by_cases heq : m' = m
        · simp only [heq, Function.update_self] at hm'
          cases hm'
        · simp only [Function.update_of_ne heq] at hm'
          exact absurd (h.eq_of_owner hm' hm) heq

theorem Run.exclusive (h : Run S s schedule log s') (hs : Exclusive S s) : Exclusive S s' := by
  induction h with
  | start => exact hs
  | turn _ hturn ih => exact ih.turn hturn

end Program

/-! ## The sections, one after the other -/

section Serial

variable {ι Call Local Shared View : Type} {S : Sections Call Local Shared}

/-- The call run alone, from the moment at which it has the mutex: it has come
to `l`, and the shared state to the last argument. -/
inductive Partway (S : Sections Call Local Shared) (call : Call) (s : Shared) :
    Local → Shared → Prop
  | enter : Partway S call s (S.enter call) s
  | step {l l' : Local} {s₁ s₂ : Shared} :
      Partway S call s l s₁ → S.step call l s₁ = .ok (some l', s₂) → Partway S call s l' s₂

/-- The call run alone, until it unlocks. -/
def Completes (S : Sections Call Local Shared) (call : Call) (s s' : Shared) : Prop :=
  ∃ l s₁, Partway S call s l s₁ ∧ S.step call l s₁ = .ok (none, s')

/-- The calls run alone, one after the other. -/
inductive Serial (S : Sections Call Local Shared) (s : Shared) : List Call → Shared → Prop
  | nil : Serial S s [] s
  | snoc {calls : List Call} {call : Call} {s₁ s₂ : Shared} :
      Serial S s calls s₁ → Completes S call s₁ s₂ → Serial S s (calls ++ [call]) s₂

theorem Serial.completes {s s' : Shared} {calls : List Call} (h : Serial S s calls s') :
    ∀ call ∈ calls, ∃ s₁ s₂, Completes S call s₁ s₂ := by
  induction h with
  | nil => exact fun call hmem => absurd hmem List.not_mem_nil
  | snoc _ hcall ih =>
      intro call hmem
      rcases List.mem_append.mp hmem with hmem | hmem
      · exact ih call hmem
      · exact List.mem_singleton.mp hmem ▸ ⟨_, _, hcall⟩

/-- Sections under other mutexes leave the view alone, and those under this one
do to the view what the view alone determines. -/
structure Protects (S : Sections Call Local Shared) (m : Nat) (view : Shared → View) : Prop where
  frame : ∀ {call m' l s o s'}, S.mutex call = some m' → m' ≠ m →
    S.step call l s = .ok (o, s') → view s' = view s
  reads : ∀ {call l s o s'} s₁, S.mutex call = some m → view s₁ = view s →
    S.step call l s = .ok (o, s') → ∃ s₁', S.step call l s₁ = .ok (o, s₁') ∧ view s₁' = view s'

/-- The calls under the mutex that were completed, and then the one under way. -/
def Serialized (S : Sections Call Local Shared) (m : Nat) (view : Shared → View) (s : Shared)
    (log : List (ι × Call)) (s' : Threads ι Call Local Shared) : Prop :=
  ∃ s₁, Serial S s (callsUnder S m log) s₁ ∧
    (s'.owner m = none → view s₁ = view s'.shared) ∧
    ∀ t call calls l, s'.owner m = some t → s'.thread t = ⟨call :: calls, some l⟩ →
      ∃ s₂, Partway S call s₁ l s₂ ∧ view s₂ = view s'.shared

variable {s : Shared} {s₁ s₂ : Threads ι Call Local Shared} {m : Nat}
  {view : Shared → View} {log : List (ι × Call)} {t : ι} {done : List Call}

theorem callsUnder_append (log log' : List (ι × Call)) :
    callsUnder S m (log ++ log') = callsUnder S m log ++ callsUnder S m log' := by
  rw [callsUnder, List.map_append, List.filter_append, callsUnder, callsUnder]

theorem callsUnder_of_ne {call : Call} (h : S.mutex call ≠ some m) (log : List (ι × Call)) :
    callsUnder S m (log ++ [(t, call)]) = callsUnder S m log := by
  rw [callsUnder_append]
  simp [callsUnder, h]

theorem callsUnder_of_eq {call : Call} (h : S.mutex call = some m) (log : List (ι × Call)) :
    callsUnder S m (log ++ [(t, call)]) = callsUnder S m log ++ [call] := by
  rw [callsUnder_append]
  simp [callsUnder, h]

/-- A turn of a thread that is under another mutex, or under none. -/
theorem Serialized.of_ne (h : Serialized S m view s log s₁) {log' : List (ι × Call)}
    (hlog : callsUnder S m log' = callsUnder S m log) (howner : s₂.owner m = s₁.owner m)
    (hthread : ∀ u, s₁.owner m = some u → s₂.thread u = s₁.thread u)
    (hview : view s₂.shared = view s₁.shared) : Serialized S m view s log' s₂ := by
  obtain ⟨s', hserial, hfree, hheld⟩ := h
  refine ⟨s', hlog ▸ hserial, fun hnone => ?_, fun u call calls l hu hl => ?_⟩
  · rw [hview]
    exact hfree (howner ▸ hnone)
  · rw [howner] at hu
    rw [hthread u hu] at hl
    rw [hview]
    exact hheld u call calls l hu hl

variable [DecidableEq ι] {schedule : List ι}

theorem Serialized.turn (h : Serialized S m view s log s₁) (hp : Protects S m view)
    (hex : Exclusive S s₁) (hturn : Turn S t s₁ done s₂) :
    Serialized S m view s (log ++ done.map (t, ·)) s₂ := by
  have hne := fun u (hu : u ≠ t) => hturn.thread_of_ne hu
  cases hturn with
  | @skip call calls hthread hmutex =>
      have hnot := hex.not_owner (congrArg Thread.inside hthread)
      have hunder : S.mutex call ≠ some m := fun h' => by cases hmutex.symm.trans h'
      exact h.of_ne (callsUnder_of_ne hunder log) rfl
        (fun u hu => hne u fun heq => hnot m (heq ▸ hu)) rfl
  | @lock call calls m' hthread hmutex howner =>
      have hnot := hex.not_owner (congrArg Thread.inside hthread)
      by_cases hm : m = m'
      · subst hm
        obtain ⟨s', hserial, hfree, -⟩ := h
        refine ⟨s', by simpa using hserial, fun hnone => ?_, fun u call' calls' l hu hl => ?_⟩
        · simp only [Function.update_self] at hnone
          cases hnone
        · simp only [Function.update_self, Option.some.injEq] at hu
          subst hu
          simp only [Function.update_self, Thread.mk.injEq, List.cons.injEq,
            Option.some.injEq] at hl
          obtain ⟨⟨rfl, -⟩, rfl⟩ := hl
          exact ⟨s', .enter, hfree howner⟩
      · exact h.of_ne (by simp) (Function.update_of_ne hm _ _)
          (fun u hu => hne u fun heq => hnot m (heq ▸ hu)) rfl
  | @step call calls l l' shared hthread hstep =>
      by_cases hm : S.mutex call = some m
      · have howner := hex.owner hthread hm
        obtain ⟨s', hserial, hfree, hheld⟩ := h
        refine ⟨s', by simpa using hserial, fun hnone => ?_, fun u call' calls' l₁ hu hl => ?_⟩
        · cases howner.symm.trans hnone
        · cases howner.symm.trans hu
          simp only [Function.update_self, Thread.mk.injEq, List.cons.injEq,
            Option.some.injEq] at hl
          obtain ⟨⟨rfl, -⟩, rfl⟩ := hl
          obtain ⟨s₂, hpart, hview⟩ := hheld t call calls l howner hthread
          obtain ⟨s₂', hstep', hview'⟩ := hp.reads s₂ hm hview hstep
          exact ⟨s₂', hpart.step hstep', hview'⟩
      · obtain ⟨call', calls', m', hcalls, hmutex, howner⟩ := hex.1 t l (by rw [hthread])
        rw [hthread] at hcalls
        obtain ⟨rfl, rfl⟩ := List.cons.inj hcalls
        have hne' : m' ≠ m := fun heq => hm (heq ▸ hmutex)
        exact h.of_ne (by simp) rfl
          (fun u hu => hne u fun heq => hne' (hex.eq_of_owner howner (heq ▸ hu)))
          (hp.frame hmutex hne' hstep)
  | @unlock call calls l m' shared hthread hmutex hstep =>
      have howner := hex.owner hthread hmutex
      by_cases hm : m = m'
      · subst hm
        obtain ⟨s', hserial, hfree, hheld⟩ := h
        obtain ⟨s₂, hpart, hview⟩ := hheld t call calls l howner hthread
        obtain ⟨s₂', hstep', hview'⟩ := hp.reads s₂ hmutex hview hstep
        refine ⟨s₂', ?_, fun _ => hview', fun u call' calls' l₁ hu _ => ?_⟩
        · rw [List.map_singleton, callsUnder_of_eq hmutex]
          exact hserial.snoc ⟨l, s₂, hpart, hstep'⟩
        · simp only [Function.update_self] at hu
          cases hu
      · have hunder : S.mutex call ≠ some m := fun h' => hm (Option.some.inj (h'.symm.trans hmutex))
        exact h.of_ne (callsUnder_of_ne hunder log) (Function.update_of_ne hm _ _)
          (fun u hu => hne u fun heq => hm (hex.eq_of_owner (heq ▸ hu) howner))
          (hp.frame hmutex (Ne.symm hm) hstep)

/-- **The sections under a mutex, as if nobody else ran.** -/
theorem Run.serial {programs : ι → List Call} (hp : Protects S m view)
    (h : Run S (Threads.start programs s) schedule log s₁) : Serialized S m view s log s₁ := by
  suffices h' : Exclusive S s₁ ∧ Serialized S m view s log s₁ from h'.2
  induction h with
  | start =>
      exact ⟨exclusive_start programs s, s, .nil, fun _ => rfl, fun _ _ _ _ hu => by cases hu⟩
  | turn _ hturn ih => exact ⟨ih.1.turn hturn, ih.2.turn hp ih.1 hturn⟩

/-! ## Nobody waits for ever -/

/-- No deadlock. -/
theorem Exclusive.progress (hex : Exclusive S s₁)
    (hok : ∀ t call calls l, s₁.thread t = ⟨call :: calls, some l⟩ →
      ∃ r, S.step call l s₁.shared = .ok r) (hnot : ¬ s₁.Finished) :
    ∃ t done s₂, Turn S t s₁ done s₂ := by
  have hinside : ∀ t l, (s₁.thread t).inside = some l → ∃ done s₂, Turn S t s₁ done s₂ := by
    intro t l hl
    obtain ⟨call, calls, m, hcalls, hmutex, -⟩ := hex.1 t l hl
    have hthread : s₁.thread t = ⟨call :: calls, some l⟩ := by rw [← hcalls, ← hl]
    obtain ⟨⟨o, shared⟩, hstep⟩ := hok t call calls l hthread
    cases o with
    | none => exact ⟨_, _, .unlock hthread hmutex hstep⟩
    | some l' => exact ⟨_, _, .step hthread hstep⟩
  obtain ⟨t, ht⟩ := not_forall.mp hnot
  rcases hthread : s₁.thread t with ⟨calls, _ | l⟩
  · cases calls with
    | nil => exact absurd hthread ht
    | cons call calls =>
        cases hmutex : S.mutex call with
        | none => exact ⟨t, _, _, .skip hthread hmutex⟩
        | some m =>
            -- the mutex is free, or else its owner can go on
            cases howner : s₁.owner m with
            | none => exact ⟨t, _, _, .lock hthread hmutex howner⟩
            | some u =>
                obtain ⟨call', calls', l, hthread', -⟩ := hex.2 m u howner
                exact ⟨u, hinside u l (by rw [hthread'])⟩
  · exact ⟨t, hinside t l (by rw [hthread])⟩

/-- What a thread still has to do: `price` is for a call that has not begun. -/
def Thread.cost (price : Call → Nat) (left : Call → Local → Nat) : Thread Call Local → Nat
  | ⟨calls, none⟩ => (calls.map price).sum
  | ⟨call :: calls, some l⟩ => left call l + 1 + (calls.map price).sum
  | ⟨[], some _⟩ => 0

section Cost

variable {price : Call → Nat} {left : Call → Local → Nat}

theorem Turn.cost_lt (henter : ∀ call, left call (S.enter call) + 1 < price call)
    (hstep : ∀ call l l' s s', S.step call l s = .ok (some l', s') → left call l' < left call l)
    (h : Turn S t s₁ done s₂) :
    (s₂.thread t).cost price left < (s₁.thread t).cost price left := by
  cases h with
  | @skip call calls hthread _ =>
      have hprice := henter call
      simp only [hthread, Function.update_self, Thread.cost, List.map_cons, List.sum_cons]
      omega
  | @lock call calls m hthread _ _ =>
      have hprice := henter call
      simp only [hthread, Function.update_self, Thread.cost, List.map_cons, List.sum_cons]
      omega
  | @step call calls l l' shared hthread hok =>
      have hleft := hstep call l l' _ _ hok
      simp only [hthread, Function.update_self, Thread.cost]
      omega
  | @unlock call calls l m shared hthread _ _ =>
      simp only [hthread, Function.update_self, Thread.cost]
      omega

/-- **Every schedule is bounded.** -/
theorem Run.length_le [Fintype ι] (price : Call → Nat) (left : Call → Local → Nat)
    (henter : ∀ call, left call (S.enter call) + 1 < price call)
    (hstep : ∀ call l l' s s', S.step call l s = .ok (some l', s') → left call l' < left call l)
    {s₀ : Threads ι Call Local Shared} (h : Run S s₀ schedule log s₁) :
    schedule.length + ∑ t, (s₁.thread t).cost price left
      ≤ ∑ t, (s₀.thread t).cost price left := by
  induction h with
  | start => exact (Nat.zero_add _).le
  | @turn schedule log s₁ s₂ t done _ hturn ih =>
      have hlt : ∑ u, (s₂.thread u).cost price left < ∑ u, (s₁.thread u).cost price left := by
        refine Finset.sum_lt_sum (fun u _ => ?_)
          ⟨t, Finset.mem_univ t, hturn.cost_lt henter hstep⟩
        by_cases hu : u = t
        · exact hu ▸ (hturn.cost_lt henter hstep).le
        · rw [hturn.thread_of_ne hu]
      rw [List.length_append, List.length_singleton]
      omega

/-- A run that can always go on, and not for ever, is the beginning of one
after which everybody is through. -/
theorem Run.finish {s₀ : Threads ι Call Local Shared} {bound : Nat}
    (hbound : ∀ schedule log s, Run S s₀ schedule log s → schedule.length ≤ bound)
    (hprogress : ∀ schedule log s, Run S s₀ schedule log s → ¬ s.Finished →
      ∃ t done s', Turn S t s done s') (h : Run S s₀ schedule log s₁) :
    ∃ schedule' log' s₂, Run S s₀ (schedule ++ schedule') log' s₂ ∧ s₂.Finished := by
  induction hn : bound - schedule.length generalizing schedule log s₁ with
  | zero =>
      refine ⟨[], log, s₁, by rwa [List.append_nil], ?_⟩
      by_contra hnot
      obtain ⟨t, done, s₂, hturn⟩ := hprogress _ _ _ h hnot
      have hlen := hbound _ _ _ (h.turn hturn)
      rw [List.length_append, List.length_singleton] at hlen
      omega
  | succ n ih =>
      by_cases hfinished : s₁.Finished
      · exact ⟨[], log, s₁, by rwa [List.append_nil], hfinished⟩
      · obtain ⟨t, done, s₂, hturn⟩ := hprogress _ _ _ h hfinished
        obtain ⟨schedule', log', s₃, hrun, hfin⟩ := ih (h.turn hturn) (by
          rw [List.length_append, List.length_singleton]
          omega)
        exact ⟨t :: schedule', log', s₃, by rwa [List.append_cons], hfin⟩

end Cost

end Serial

end Jccl
