/-
# `Jccl.Timer.Passes` — what a timed block does with its body

A pass is a reading of the clock, the body, and another reading; its duration
is the difference of the two.  Before the condition is evaluated for the next
time, `_tb_sum` is the sum of the durations (`Passed`): not field by field,
since the nanoseconds of a sum may be negative or more than a second, but as a
number of nanoseconds, and neither field overflows.  A body that leaves the
block leaves it for good, and the action is not carried out.
-/
import Jccl.Timer.Defs

namespace Jccl

/-- The time in nanoseconds. -/
def Timespec.ns (t : Timespec) : Int := t.tvSec * 10 ^ 9 + t.tvNsec

/-- The mean of times in nanoseconds, in seconds. -/
def meanOf (ds : List Int) (niteration : Int) : Option Rat :=
  if niteration = 0 then none else some ((ds.sum : Rat) / 10 ^ 9 / niteration)

/-- A clock that is never set back. -/
structure SteadyClock (clock : Nat → Timespec) : Prop where
  second : ∀ k, 0 ≤ (clock k).tvSec ∧ (clock k).tvSec ≤ LONG_MAX
  nanosecond : ∀ k, 0 ≤ (clock k).tvNsec ∧ (clock k).tvNsec < 10 ^ 9
  steady : ∀ k, (clock k).ns ≤ (clock (k + 1)).ns

section Clock

variable {clock : Nat → Timespec}

theorem SteadyClock.ns_le (h : SteadyClock clock) {j k : Nat} (hjk : j ≤ k) :
    (clock j).ns ≤ (clock k).ns :=
  monotone_nat_of_le_succ h.steady hjk

theorem SteadyClock.tvSec_le (h : SteadyClock clock) {j k : Nat} (hjk : j ≤ k) :
    (clock j).tvSec ≤ (clock k).tvSec := by
  have hns := h.ns_le hjk
  have hj := h.nanosecond j
  have hk := h.nanosecond k
  unfold Timespec.ns at hns
  omega

end Clock

section Passes

variable {α : Type} {clock : Nat → Timespec} {body : World α → Outcome (Control × World α)}

/-- Passes that take these times, one after the other. -/
inductive Passes (clock : Nat → Timespec) (body : World α → Outcome (Control × World α)) :
    World α → List Int → World α → Prop
  | nil {w} : Passes clock body w [] w
  | snoc {w ds later control mid} : Passes clock body w ds later →
      body { later with ticks := later.ticks + 1 } = .ok (control, mid) → control ≠ .breaks →
      Passes clock body w (ds ++ [(clock mid.ticks).ns - (clock later.ticks).ns])
        { mid with ticks := mid.ticks + 1 }

/-- A body that comes to an end, and does not put readings back. -/
def BodyEnds (body : World α → Outcome (Control × World α)) : Prop :=
  ∀ w, ∃ control w', body w = .ok (control, w') ∧ w.ticks ≤ w'.ticks

theorem Passes.ticks_le (hbody : BodyEnds body) {w later : World α} {ds : List Int}
    (h : Passes clock body w ds later) : w.ticks ≤ later.ticks := by
  induction h with
  | nil => exact le_refl _
  | @snoc ds later control mid _ hrun _ ih =>
      obtain ⟨_, _, hrun', hle⟩ := hbody { later with ticks := later.ticks + 1 }
      cases hrun'.symm.trans hrun
      dsimp only at hle ⊢
      omega

/-- All the passes together take no longer than it takes from first to last. -/
theorem Passes.sum_le (hclock : SteadyClock clock) {w later : World α}
    {ds : List Int} (h : Passes clock body w ds later) :
    ds.sum ≤ (clock later.ticks).ns - (clock w.ticks).ns := by
  induction h with
  | nil => rw [List.sum_nil, sub_self]
  | @snoc ds later control mid _ hrun _ ih =>
      have hstop := hclock.steady mid.ticks
      rw [List.sum_append, List.sum_singleton]
      show _ ≤ (clock (mid.ticks + 1)).ns - _
      omega

theorem Passes.nonneg (hclock : SteadyClock clock) (hbody : BodyEnds body) {w later : World α}
    {ds : List Int} (h : Passes clock body w ds later) : ∀ d ∈ ds, 0 ≤ d := by
  induction h with
  | nil => exact fun d hd => absurd hd List.not_mem_nil
  | @snoc ds later control mid _ hrun _ ih =>
      intro d hd
      rcases List.mem_append.mp hd with hd | hd
      · exact ih d hd
      · obtain ⟨_, _, hrun', hle⟩ := hbody { later with ticks := later.ticks + 1 }
        cases hrun'.symm.trans hrun
        have hns := hclock.ns_le (Nat.le_of_succ_le hle)
        rw [List.mem_singleton.mp hd]
        omega

/-! ## The variables of the loop -/

theorem meanDuration_eq {sum : Timespec} {ds : List Int} (h : sum.ns = ds.sum) (niteration : Int) :
    meanDuration sum niteration = meanOf ds niteration := by
  have hseconds : (sum.tvSec : Rat) + sum.tvNsec / 10 ^ 9 = (ds.sum : Rat) / 10 ^ 9 := by
    rw [← h, Timespec.ns]
    push_cast
    ring
  rw [meanDuration, meanOf, hseconds]

/-- Nothing that is counted or added up for so many iterations leaves the range of
a `long`. -/
def CountFits (niteration : Int) : Prop := niteration * 10 ^ 9 ≤ LONG_MAX

instance (niteration : Int) : Decidable (CountFits niteration) := by
  unfold CountFits
  infer_instance

/-- Before the condition is evaluated behind some passes. -/
structure Passed (clock : Nat → Timespec) (body : World α → Outcome (Control × World α))
    (niteration : Int) (w : World α) (ds : List Int) (v : TimedBlockVars) (later : World α) :
    Prop where
  passes : Passes clock body w ds later
  tbI : v.tbI = ds.length
  tbNiteration : v.tbNiteration = niteration
  total : v.tbSum.ns = ds.sum
  sec : 0 ≤ v.tbSum.tvSec ∧
    v.tbSum.tvSec ≤ (clock later.ticks).tvSec - (clock w.ticks).tvSec
  nsec : |v.tbSum.tvNsec| ≤ ds.length * 10 ^ 9

variable {niteration : Int} {action : Option Rat → α → α} {w later : World α} {ds : List Int}
  {v : TimedBlockVars}

theorem passed_init : Passed clock body niteration w [] (timedBlockInit niteration) w where
  passes := .nil
  tbI := rfl
  tbNiteration := rfl
  total := rfl
  sec := ⟨le_refl 0, (sub_self _).ge⟩
  nsec := by
    show |(0 : Int)| ≤ 0
    exact abs_zero.le

/-- The condition starts the timer in any case. -/
theorem Passed.condition (h : Passed clock body niteration w ds v later)
    (action : Option Rat → α → α) (hcount : CountFits ds.length) :
    timedBlockCondition clock action (v, later) = .ok (if (ds.length : Int) < niteration then
        (true, { v with tbStart := some (clock later.ticks), tbI := ds.length + 1 },
          { later with ticks := later.ticks + 1 })
      else
        (false, { v with tbStart := some (clock later.ticks), tbI := ds.length + 1 },
          { ticks := later.ticks + 1, user := action (meanOf ds niteration) later.user })) := by
  have hlong : IsLong ((ds.length : Int) + 1) := by
    unfold CountFits LONG_MAX at hcount
    unfold IsLong LONG_MIN LONG_MAX
    omega
  rw [timedBlockCondition, h.tbI, h.tbNiteration, longAdd, checkLong_of hlong]
  by_cases hgoes : (ds.length : Int) < niteration
  · rw [if_pos hgoes]
    simp [clockGettime, hgoes]
  · rw [if_neg hgoes]
    simp [clockGettime, hgoes, meanDuration_eq h.total]

/-- The increment, where each of its four results is a `long`. -/
theorem timedBlockIncrement_ok {mid : World α} {start : Timespec} (hstart : v.tbStart = some start)
    (hsecSub : IsLong ((clock mid.ticks).tvSec - start.tvSec))
    (hsecAdd : IsLong (v.tbSum.tvSec + ((clock mid.ticks).tvSec - start.tvSec)))
    (hnsecSub : IsLong ((clock mid.ticks).tvNsec - start.tvNsec))
    (hnsecAdd : IsLong (v.tbSum.tvNsec + ((clock mid.ticks).tvNsec - start.tvNsec))) :
    timedBlockIncrement clock (v, mid) = .ok ({ v with
      tbStop := some (clock mid.ticks)
      tbSum := {
        tvSec := v.tbSum.tvSec + ((clock mid.ticks).tvSec - start.tvSec)
        tvNsec := v.tbSum.tvNsec + ((clock mid.ticks).tvNsec - start.tvNsec) } },
      { mid with ticks := mid.ticks + 1 }) := by
  simp only [timedBlockIncrement, clockGettime, hstart, longSub, longAdd, checkLong_of hsecSub,
    checkLong_of hsecAdd, checkLong_of hnsecSub, checkLong_of hnsecAdd, Outcome.ok_bind]
  rfl

/-- The increment adds the duration, and no field of the sum overflows. -/
theorem Passed.increment (h : Passed clock body niteration w ds v later)
    (hclock : SteadyClock clock) (hbody : BodyEnds body) (hcount : CountFits (ds.length + 1))
    {control : Control} {mid : World α}
    (hrun : body { later with ticks := later.ticks + 1 } = .ok (control, mid))
    (hcontrol : control ≠ .breaks) :
    ∃ v' w', timedBlockIncrement clock
        ({ v with tbStart := some (clock later.ticks), tbI := ds.length + 1 }, mid) = .ok (v', w') ∧
      Passed clock body niteration w
        (ds ++ [(clock mid.ticks).ns - (clock later.ticks).ns]) v' w' := by
  obtain ⟨_, _, hrun', hticks⟩ := hbody { later with ticks := later.ticks + 1 }
  cases hrun'.symm.trans hrun
  have hsec := hclock.tvSec_le (Nat.le_of_succ_le hticks)
  have hnext : (clock mid.ticks).tvSec ≤ (clock (mid.ticks + 1)).tvSec :=
    hclock.tvSec_le (Nat.le_succ mid.ticks)
  have hstart := hclock.second later.ticks
  have hstop := hclock.second mid.ticks
  have hfirst := hclock.second w.ticks
  have hstartNs := hclock.nanosecond later.ticks
  have hstopNs := hclock.nanosecond mid.ticks
  obtain ⟨hlow, hhigh⟩ := h.sec
  obtain ⟨hnsLow, hnsHigh⟩ := abs_le.mp h.nsec
  unfold LONG_MAX at hstart hstop
  unfold CountFits LONG_MAX at hcount
  -- each of the four results is a `long`
  have hsecSub : IsLong ((clock mid.ticks).tvSec - (clock later.ticks).tvSec) := by
    unfold IsLong LONG_MIN LONG_MAX
    omega
  have hsecAdd : IsLong (v.tbSum.tvSec
      + ((clock mid.ticks).tvSec - (clock later.ticks).tvSec)) := by
    unfold IsLong LONG_MIN LONG_MAX
    omega
  have hnsecSub : IsLong ((clock mid.ticks).tvNsec - (clock later.ticks).tvNsec) := by
    unfold IsLong LONG_MIN LONG_MAX
    omega
  have hnsecAdd : IsLong (v.tbSum.tvNsec
      + ((clock mid.ticks).tvNsec - (clock later.ticks).tvNsec)) := by
    unfold IsLong LONG_MIN LONG_MAX
    omega
  have hstep := @timedBlockIncrement_ok α clock
    { v with tbStart := some (clock later.ticks), tbI := ds.length + 1 } mid _ rfl
    hsecSub hsecAdd hnsecSub hnsecAdd
  have htotal := h.total
  unfold Timespec.ns at htotal
  refine ⟨_, _, hstep, .snoc h.passes hrun hcontrol, ?_, h.tbNiteration, ?_, ⟨?_, ?_⟩, ?_⟩
  · rw [List.length_append, List.length_singleton]
    rfl
  · rw [List.sum_append, List.sum_singleton]
    unfold Timespec.ns
    dsimp only
    omega
  · dsimp only
    omega
  · dsimp only
    omega
  · rw [List.length_append, List.length_singleton]
    push_cast
    rw [abs_le]
    omega

/-! ## The run -/

/-- How a block ends: behind all of its passes, with the action, or within
one that leaves it, without. -/
inductive TimedBlockEnds (clock : Nat → Timespec) (action : Option Rat → α → α)
    (niteration : Int) (body : World α → Outcome (Control × World α)) (w : World α) :
    World α → Prop
  | all {ds : List Int} {later : World α} : Passes clock body w ds later → ds.length = niteration.toNat →
      TimedBlockEnds clock action niteration body w
        { ticks := later.ticks + 1, user := action (meanOf ds niteration) later.user }
  | left {ds later mid} : Passes clock body w ds later → ds.length < niteration.toNat →
      body { later with ticks := later.ticks + 1 } = .ok (.breaks, mid) →
      TimedBlockEnds clock action niteration body w mid

/-- The states of the loop. -/
def Timing (clock : Nat → Timespec) (body : World α → Outcome (Control × World α))
    (niteration : Int) (w : World α) (s : TimedBlockVars × World α) : Prop :=
  ∃ ds, Passed clock body niteration w ds s.1 s.2 ∧ ds.length ≤ niteration.toNat

theorem timedBlockBody_run {control : Control} {mid : World α} (h : body w = .ok (control, mid))
    (v : TimedBlockVars) : timedBlockBody body (v, w) = .ok (control, v, mid) := by
  rw [timedBlockBody, h]
  rfl

theorem Timing.step (action : Option Rat → α → α) (hclock : SteadyClock clock)
    (hbody : BodyEnds body) (hfits : CountFits niteration)
    {s : TimedBlockVars × World α} (h : Timing clock body niteration w s) :
    (∃ t, forStep (timedBlockCondition clock action) (timedBlockIncrement clock)
        (timedBlockBody body) s = .ok (.inl t) ∧
      TimedBlockEnds clock action niteration body w t.2) ∨
    ∃ t, forStep (timedBlockCondition clock action) (timedBlockIncrement clock)
        (timedBlockBody body) s = .ok (.inr t) ∧
      Timing clock body niteration w t ∧
      niteration.toNat - t.1.tbI.toNat < niteration.toNat - s.1.tbI.toNat := by
  obtain ⟨v, later⟩ := s
  obtain ⟨ds, hpassed, hle⟩ := h
  have hcount : ∀ k : Nat, k ≤ niteration.toNat → CountFits k := by
    intro k hk
    unfold CountFits LONG_MAX at hfits ⊢
    omega
  have hcondition := hpassed.condition action (hcount _ hle)
  by_cases hgoes : (ds.length : Int) < niteration
  · rw [if_pos hgoes] at hcondition
    obtain ⟨control, mid, hrun, -⟩ := hbody { later with ticks := later.ticks + 1 }
    by_cases hcontrol : control = .breaks
    · left
      subst hcontrol
      exact ⟨_, forStep_breaks hcondition (timedBlockBody_run hrun _),
        .left hpassed.passes (by omega) hrun⟩
    · right
      obtain ⟨v', w', hincrement, hpassed'⟩ :=
        hpassed.increment hclock hbody (hcount (ds.length + 1) (by omega)) hrun hcontrol
      refine ⟨_, forStep_passes hcondition (timedBlockBody_run hrun _) hcontrol hincrement,
        ⟨_, hpassed', ?_⟩, ?_⟩
      · rw [List.length_append, List.length_singleton]
        omega
      · rw [hpassed.tbI, hpassed'.tbI, List.length_append, List.length_singleton]
        omega
  · left
    rw [if_neg hgoes] at hcondition
    exact ⟨_, forStep_ends hcondition, .all hpassed.passes (by omega)⟩

/-- The loop comes to an end before its fuel does. -/
theorem timedBlockLoop_ends (action : Option Rat → α → α) (hclock : SteadyClock clock)
    (hbody : BodyEnds body) (hfits : CountFits niteration) (w : World α) :
    ∃ s, forStatement (timedBlockCondition clock action) (timedBlockIncrement clock)
        (timedBlockBody body) (niteration.toNat + 1) (timedBlockInit niteration, w) = .ok s ∧
      TimedBlockEnds clock action niteration body w s.2 := by
  have hstart : Timing clock body niteration w (timedBlockInit niteration, w) :=
    ⟨[], passed_init, Nat.zero_le _⟩
  exact loopUntil_ok
    (μ := fun s : TimedBlockVars × World α => niteration.toNat - s.1.tbI.toNat)
    (fun _ h => Timing.step action hclock hbody hfits h) hstart
    (Nat.lt_succ_of_le (Nat.sub_le _ _))

end Passes

/-- A clock that stops after a minute. -/
def minuteClock (k : Nat) : Timespec := { tvSec := min k 60, tvNsec := 0 }

theorem steadyClock_minuteClock : SteadyClock minuteClock where
  second k := by
    unfold minuteClock LONG_MAX
    dsimp only
    omega
  nanosecond k := by
    show (0 : Int) ≤ 0 ∧ (0 : Int) < 10 ^ 9
    decide
  steady k := by
    unfold Timespec.ns minuteClock
    dsimp only
    omega

/-- A second between two readings, and seven of them. -/
example : (timedBlock minuteClock (fun mean u => u ++ [mean]) 3 (fun w => .ok (.normal, w))
    { ticks := 0, user := [] }).map (fun w => (w.ticks, w.user)) = .ok (7, [some 1]) := by
  decide +kernel

end Jccl
