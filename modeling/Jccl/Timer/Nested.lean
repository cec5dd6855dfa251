/-
# `Jccl.Timer.Nested` — a timed block in a timed block

Every pass of the outer block runs the inner block, which reports once; the
outer block reports after all of them.  A report gives the mean of the passes of
its block, so the time of the block is the mean times the count.  That time was
measured between two readings that the outer block takes, so together the
inner blocks report no more time than the outer one does.
-/
import Jccl.Timer.Passes

namespace Jccl

/-- What the action is given. -/
structure Report where
  description : String
  meanDuration : Option Rat
deriving DecidableEq

/-- The time of a block that reports a mean, in seconds. -/
def Report.time (niteration : Int) (r : Report) : Rat := r.meanDuration.getD 0 * niteration

/-- The mean is a number, unless it is one of no iterations. -/
def Report.IsMean (niteration : Int) (r : Report) : Prop :=
  niteration ≠ 0 → ∃ mean, r.meanDuration = some mean ∧ 0 ≤ mean

section Nested

variable {β : Type} (clock : Nat → Timespec)

/-- The action that writes to a log. -/
def report (description : String) (meanDuration : Option Rat) (u : List Report × β) :
    List Report × β :=
  (u.1 ++ [{ description := description, meanDuration := meanDuration }], u.2)

/-- A timed block as the body of another one. -/
def innerBlock (description : String) (niteration : Int)
    (body : World (List Report × β) → Outcome (Control × World (List Report × β)))
    (w : World (List Report × β)) : Outcome (Control × World (List Report × β)) := do
  let w ← timedBlock clock (report description) niteration body w
  return (.normal, w)

/-- A body that comes to an end, does not leave the block and does not write
to the log. -/
structure Quiet (body : World (List Report × β) → Outcome (Control × World (List Report × β))) :
    Prop where
  ends : BodyEnds body
  stays : ∀ w control w', body w = .ok (control, w') → control ≠ .breaks ∧ w'.user.1 = w.user.1

variable {clock} {body : World (List Report × β) → Outcome (Control × World (List Report × β))}
  {niteration : Int} {description : String}

theorem Passes.quiet (h : Quiet body) {w later : World (List Report × β)} {ds : List Int}
    (hpasses : Passes clock body w ds later) : later.user.1 = w.user.1 := by
  induction hpasses with
  | nil => rfl
  | snoc _ hrun _ ih => exact (h.stays _ _ _ hrun).2.trans ih

/-- The report on some passes. -/
def reportOf (description : String) (ds : List Int) (niteration : Int) : Report :=
  { description := description, meanDuration := meanOf ds niteration }

/-- Without passes there is no time either. -/
theorem time_reportOf {ds : List Int} (hlen : ds.length = niteration.toNat) :
    (reportOf description ds niteration).time niteration = (ds.sum : Rat) / 10 ^ 9 := by
  rw [Report.time, reportOf, meanOf]
  by_cases hzero : niteration = 0
  · subst hzero
    rw [List.eq_nil_of_length_eq_zero hlen, if_pos rfl]
    norm_num
  · have hne : (niteration : Rat) ≠ 0 := Int.cast_ne_zero.mpr hzero
    rw [if_neg hzero, Option.getD_some, div_mul_cancel₀ _ hne]

theorem isMean_reportOf {ds : List Int} (hlen : ds.length = niteration.toNat)
    (hnonneg : 0 ≤ ds.sum) : (reportOf description ds niteration).IsMean niteration := by
  intro hne
  refine ⟨_, if_neg hne, ?_⟩
  rcases lt_or_gt_of_ne hne with hneg | hpos
  · -- nothing was asked for
    rw [Int.toNat_of_nonpos hneg.le] at hlen
    rw [List.eq_nil_of_length_eq_zero hlen]
    norm_num
  · have hsum : (0 : Rat) ≤ ds.sum := Int.cast_nonneg hnonneg
    have hcount : (0 : Rat) ≤ niteration := Int.cast_nonneg hpos.le
    positivity

/-- One block: one report more, of no more time than has passed. -/
theorem innerBlock_reports (hclock : SteadyClock clock) (h : Quiet body)
    (hfits : CountFits niteration) (w : World (List Report × β)) :
    ∃ w' ds, innerBlock clock description niteration body w = .ok (.normal, w') ∧
      w'.user.1 = w.user.1 ++ [reportOf description ds niteration] ∧
      ds.length = niteration.toNat ∧ w.ticks ≤ w'.ticks ∧ 0 ≤ ds.sum ∧
      ds.sum ≤ (clock w'.ticks).ns - (clock w.ticks).ns := by
  obtain ⟨⟨v, w'⟩, hrun, hends⟩ :=
    timedBlockLoop_ends (report description) hclock h.ends hfits w
  cases hends with
  | left _ _ hleft => exact absurd rfl (h.stays _ _ _ hleft).1
  | @all ds later hpasses hlen =>
      have hle := hpasses.sum_le hclock
      have hnext := hclock.steady later.ticks
      have hinner : innerBlock clock description niteration body w = .ok (.normal,
          { ticks := later.ticks + 1,
            user := report description (meanOf ds niteration) later.user }) := by
        rw [innerBlock, timedBlock, hrun]
        rfl
      refine ⟨_, ds, hinner, ?_, hlen, ?_, ?_, ?_⟩
      · show later.user.1 ++ _ = _
        rw [hpasses.quiet h]
        rfl
      · exact (hpasses.ticks_le h.ends).trans (Nat.le_succ _)
      · exact List.sum_nonneg (hpasses.nonneg hclock h.ends)
      · show _ ≤ (clock (later.ticks + 1)).ns - _
        omega

theorem innerBlock_ends (hclock : SteadyClock clock) (h : Quiet body)
    (hfits : CountFits niteration) : BodyEnds (innerBlock clock description niteration body) := by
  intro w
  obtain ⟨w', ds, hrun, -, -, hle, -⟩ := @innerBlock_reports _ clock body niteration description
    hclock h hfits w
  exact ⟨.normal, w', hrun, hle⟩

/-- The reports of the inner blocks that belong to the passes of the outer one. -/
structure InnerReports (description : String) (niteration : Int) (ds : List Int)
    (reports : List Report) : Prop where
  count : reports.length = ds.length
  inner : ∀ r ∈ reports, r.description = description ∧ r.IsMean niteration
  time : (reports.map (Report.time niteration)).sum ≤ (ds.sum : Rat) / 10 ^ 9

theorem Passes.innerReports (hclock : SteadyClock clock) (h : Quiet body)
    (hfits : CountFits niteration) {w later : World (List Report × β)} {ds : List Int}
    (hpasses : Passes clock (innerBlock clock description niteration body) w ds later) :
    ∃ reports, later.user.1 = w.user.1 ++ reports ∧
      InnerReports description niteration ds reports := by
  induction hpasses with
  | nil =>
      refine ⟨[], (List.append_nil _).symm, rfl, fun r hr => absurd hr List.not_mem_nil, ?_⟩
      norm_num
  | @snoc ds later control mid _ hrun _ ih =>
      obtain ⟨reports, hlog, hreports⟩ := ih
      obtain ⟨w', inner, hrun', hlog', hlen, -, hpos, hle⟩ := @innerBlock_reports _ clock body
        niteration description hclock h hfits { later with ticks := later.ticks + 1 }
      cases hrun'.symm.trans hrun
      have hstart := hclock.steady later.ticks
      refine ⟨reports ++ [reportOf description inner niteration], ?_, ?_, ?_, ?_⟩
      · rw [hlog', hlog, List.append_assoc]
      · rw [List.length_append, List.length_append, hreports.count]
        rfl
      · intro r hr
        rcases List.mem_append.mp hr with hr | hr
        · exact hreports.inner r hr
        · rw [List.mem_singleton.mp hr]
          exact ⟨rfl, isMean_reportOf hlen hpos⟩
      · -- the inner block is over before the timer of the outer one is stopped
        have hinner : (inner.sum : Rat)
            ≤ (((clock mid.ticks).ns - (clock later.ticks).ns : Int) : Rat) := by
          refine Int.cast_le.mpr ?_
          dsimp only at hle
          omega
        have htime := hreports.time
        rw [List.map_append, List.sum_append, List.map_singleton, List.sum_singleton,
          time_reportOf hlen, List.sum_append, List.sum_singleton, Int.cast_add, add_div]
        exact add_le_add htime (div_le_div_of_nonneg_right hinner (by norm_num))

end Nested

/-- **Nested blocks**: the log gets a report of the inner block for each
iteration of the outer one, then one of the outer block; and the times of the
inner blocks, which are the means that they report times their count, add up to no
more than that of the outer one. -/
theorem timedBlock_nested {β : Type} (clock : Nat → Timespec)
    (body : World (List Report × β) → Outcome (Control × World (List Report × β)))
    (outer inner : String) (n m : Int) (w : World (List Report × β)) (hclock : SteadyClock clock)
    (hbody : Quiet body) (hn : CountFits n) (hm : CountFits m) :
    ∃ w' reports last,
      timedBlock clock (report outer) n (innerBlock clock inner m body) w = .ok w' ∧
      w'.user.1 = w.user.1 ++ reports ++ [last] ∧
      reports.length = n.toNat ∧
      (∀ r ∈ reports, r.description = inner ∧ r.IsMean m) ∧
      last.description = outer ∧ last.IsMean n ∧
      (reports.map (Report.time m)).sum ≤ last.time n := by
  obtain ⟨⟨v, w'⟩, hrun, hends⟩ :=
    timedBlockLoop_ends (report outer) hclock (innerBlock_ends hclock hbody hm) hn w
  have hblock : timedBlock clock (report outer) n (innerBlock clock inner m body) w = .ok w' := by
    rw [timedBlock, hrun]
    rfl
  cases hends with
  | @left ds later mid _ _ hleft =>
      obtain ⟨_, _, hrun', -⟩ := @innerBlock_reports _ clock body m inner hclock hbody hm
        { later with ticks := later.ticks + 1 }
      cases hrun'.symm.trans hleft
  | @all ds later hpasses hlen =>
      obtain ⟨reports, hlog, hreports⟩ := hpasses.innerReports hclock hbody hm
      have hnonneg := List.sum_nonneg (hpasses.nonneg hclock (innerBlock_ends hclock hbody hm))
      refine ⟨_, reports, reportOf outer ds n, hblock, ?_, hreports.count.trans hlen,
        hreports.inner, rfl, isMean_reportOf hlen hnonneg, ?_⟩
      · show later.user.1 ++ _ = _
        rw [hlog]
        rfl
      · rw [time_reportOf hlen]
        exact hreports.time

/-- A body that does nothing. -/
theorem timedBlock_nested_idle :
    ∃ w' reports last,
      timedBlock minuteClock (report "wrapping") 2
        (innerBlock minuteClock "usleep(10000)" 5 fun w => .ok (.normal, w))
        { ticks := 0, user := ([], ()) } = .ok w' ∧
      w'.user.1 = [] ++ reports ++ [last] ∧
      reports.length = 2 ∧
      (∀ r ∈ reports, r.description = "usleep(10000)" ∧ r.IsMean 5) ∧
      last.description = "wrapping" ∧ last.IsMean 2 ∧
      (reports.map (Report.time 5)).sum ≤ last.time 2 := by
  have hquiet : Quiet fun w : World (List Report × Unit) => .ok (.normal, w) := by
    refine ⟨fun w => ⟨.normal, w, rfl, le_refl _⟩, fun w control w' h => ?_⟩
    cases h
    exact ⟨by decide, rfl⟩
  exact timedBlock_nested minuteClock _ "wrapping" "usleep(10000)" 2 5
    { ticks := 0, user := ([], ()) } steadyClock_minuteClock hquiet (by decide) (by decide)

end Jccl
