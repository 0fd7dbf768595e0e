import ProxBack.Sched.NextRun
import ProxBack.Store.ScheduleValue

/-! A schedule fires at the minutes that it declares, and the scheduler announces the next one. -/
namespace ProxBack.Sched
open Lib Calendar Store
open Engine (Time)

def Declared (s : Schedule) (k : Int) : Prop :=
  match s.kind with
  | .hourly => k % 60 = s.minute
  | .daily => k % 1440 = clockMinute s
  | .weekly => k % 1440 = clockMinute s ∧ weekday (dayOf k) ∈ s.weekdays
  | .monthly => k % 1440 = clockMinute s ∧ DueDay s (dayOf k)
  | .manual | .advanced => False

namespace Firing

def nextReal (m : CaseMap) (cron : Cron) (v : ScheduleValue) : Nat → Time → Option Time
  | 0, _ => none
  | n + 1, t =>
    match cron.next (v.cron m) t with
    | none => none
    | some next => if v.shouldRun (next / minuteSpan) then some next else nextReal m cron v n next

/-- `NextRun`. -/
def nextRun (m : CaseMap) (cron : Cron) (v : ScheduleValue) (enabled : Bool) (now : Moment) :
    Option Time :=
  if ¬ enabled ∨ v.cron m = [] then none
  else if (cron.parse (v.cron m)).isNone then none
  else (nextReal m cron v nextRunProbes now.wall).map now.utc

end Firing

/-- The schedule fires exactly at the minutes it declares, a last-day one once in each month, and
the next of them is announced, whatever the time is. -/
structure FiresAsDeclared (m : CaseMap) (cron : Cron) (v : ScheduleValue) (s : Schedule) : Prop where
  fires : ∀ t, v.RunsAt m cron t ↔ ∃ k, t = k * minuteSpan ∧ Declared s k
  lastDay : s.kind = .monthly → s.dayOfMonth = Schedule.lastDayOfMonth → ∀ month,
    ∃! k, v.RunsAt m cron (k * minuteSpan) ∧ monthOf (dayOf k) = month
  next : ∀ now : Moment, ∃ k, IsLeast {k | now.minute < k ∧ Declared s k} k ∧
    Firing.nextRun m cron v true now = some (now.utc (k * minuteSpan))

section
variable {s : Schedule} {c : Cron} {q : Int}

theorem due_iff (hvalid : s.validate c = none) (hkind : s.Structured) (k : Int) : Due s k ↔ Declared s k := by
  unfold Declared
  cases hk : s.kind with
  | manual => exact absurd hk hkind.1
  | advanced => exact absurd hk hkind.2
  | hourly => exact due_hourly hvalid hk
  | daily => exact due_daily hvalid hk
  | weekly =>
    rw [due_weekly hvalid hk]
    exact and_congr_right fun _ => mem_normalizeWeekdays
  | monthly => exact due_monthly hvalid hk

theorem day_ahead {clock d : Int} (hclock : 0 ≤ clock ∧ clock < 1440) (h : dayOf q < d) :
    q < d * 1440 + clock ∧ (d * 1440 + clock) % 1440 = clock ∧ dayOf (d * 1440 + clock) = d := by
  unfold dayOf at *
  omega

theorem exists_dueDay (hday : 1 ≤ s.dayOfMonth ∧ s.dayOfMonth ≤ 31) (day : Int) :
    ∃ d, day < d ∧ DueDay s d := by
  obtain ⟨-, hafter⟩ := monthOf_spec day
  have hlong : ∃ month, monthOf day < month ∧ 30 ≤ monthLength month := by
    by_cases hnext : 30 ≤ monthLength (monthOf day + 1)
    · exact ⟨_, by omega, hnext⟩
    · have hshort := monthLength_of_short (not_le.mp hnext)
      refine ⟨monthOf day + 2, by omega, ?_⟩
      by_contra hagain
      have hshort' := monthLength_of_short (not_le.mp hagain)
      omega
  obtain ⟨month, hmonth, hlength⟩ := hlong
  have hstart := monthStart_mono (show monthOf day + 1 ≤ month by omega)
  unfold DueDay Schedule.lastDayOfMonth
  by_cases hlast : s.dayOfMonth ≥ 31
  · refine ⟨monthStart month + monthLength month - 1, by omega, ?_⟩
    rw [if_pos hlast, monthOf_add (by omega) le_rfl, dayOfMonth_add (by omega) le_rfl]
  · refine ⟨monthStart month + s.dayOfMonth - 1, by omega, ?_⟩
    rw [if_neg hlast]
    exact dayOfMonth_add (by omega) (by omega)

theorem exists_declared (hvalid : s.validate c = none) (hkind : s.Structured) (q : Int) :
    ∃ k, q < k ∧ Declared s k := by
  unfold Declared
  cases hk : s.kind with
  | manual => exact absurd hk hkind.1
  | advanced => exact absurd hk hkind.2
  | hourly =>
    have hm := (Schedule.validate_hourly hk).mp hvalid
    exact ⟨(q / 60 + 1) * 60 + s.minute, by omega, by dsimp only; omega⟩
  | daily =>
    obtain ⟨hlt, hclock, -⟩ := day_ahead (clockMinute_bounds hvalid (.inl hk)) (Int.lt_succ (dayOf q))
    exact ⟨_, hlt, hclock⟩
  | weekly =>
    obtain ⟨-, hne, hrange⟩ := (Schedule.validate_weekly hk).mp hvalid
    obtain ⟨w, hw⟩ := List.exists_mem_of_ne_nil _ hne
    obtain ⟨n, hpos, -, hday⟩ := exists_weekday (dayOf q) (hrange w hw)
    obtain ⟨hlt, hclock, hdayOf⟩ := day_ahead (clockMinute_bounds hvalid (.inr (.inl hk)))
      (show dayOf q < dayOf q + n by omega)
    refine ⟨_, hlt, hclock, ?_⟩
    rw [hdayOf, hday]
    exact mem_normalizeWeekdays.mp hw
  | monthly =>
    obtain ⟨d, hd, hdue⟩ := exists_dueDay ((Schedule.validate_monthly hk).mp hvalid).2 (dayOf q)
    obtain ⟨hlt, hclock, hdayOf⟩ := day_ahead (clockMinute_bounds hvalid (.inr (.inr hk))) hd
    exact ⟨_, hlt, hclock, by rwa [hdayOf]⟩

theorem existsUnique_last (hvalid : s.validate c = none) (hkind : s.kind = .monthly)
    (hlast : s.dayOfMonth = Schedule.lastDayOfMonth) (month : Int) :
    ∃! k, Declared s k ∧ monthOf (dayOf k) = month := by
  have hclock := clockMinute_bounds hvalid (.inr (.inr hkind))
  have hlength := monthLength_bounds month
  have hdeclared : ∀ k, Declared s k ↔ k % 1440 = clockMinute s ∧
      dayOfMonth (dayOf k) = monthLength (monthOf (dayOf k)) := by
    intro k
    unfold Declared DueDay
    rw [hkind, if_pos hlast.ge]
  have hday : dayOf ((monthStart month + monthLength month - 1) * 1440 + clockMinute s) =
      monthStart month + monthLength month - 1 := by
    unfold dayOf
    omega
  refine ⟨(monthStart month + monthLength month - 1) * 1440 + clockMinute s, ⟨?_, ?_⟩, ?_⟩
  · rw [hdeclared, hday, monthOf_add (by omega) le_rfl, dayOfMonth_add (by omega) le_rfl]
    omega
  · rw [hday]
    exact monthOf_add (by omega) le_rfl
  · rintro k ⟨hk, rfl⟩
    obtain ⟨hminute, hend⟩ := (hdeclared k).mp hk
    have hof := monthStart_dayOfMonth (dayOf k)
    unfold dayOf at *
    omega

theorem exists_undeclared (hvalid : s.validate c = none) (hkind : s.kind = .monthly)
    (hlast : s.dayOfMonth = Schedule.lastDayOfMonth) : ∃ k, s.spec.Matches k ∧ ¬ Declared s k := by
  obtain ⟨hh, hm⟩ := Schedule.clock_of_valid hvalid (.inr (.inr hkind))
  obtain ⟨hminute, hhour, hday⟩ := minute_at 27 hh hm
  refine ⟨27 * 1440 + s.clock.1 * 60 + s.clock.2, ?_, fun h => ?_⟩
  · rw [Schedule.spec, hkind]
    dsimp only
    rw [if_pos hlast.ge, matches_at hh hm]
    decide
  · -- 28 January 1970
    unfold Declared DueDay at h
    rw [hkind, hday, if_pos hlast.ge] at h
    exact absurd h.2 (by decide)

end

section
variable {m : CaseMap} {cron : Cron} {v : ScheduleValue} {s : Schedule}

theorem Firing.nextReal_eq (hread : v.read m = some s) (hreal : ∀ k, v.shouldRun k ↔ s.shouldRun k)
    (n : Nat) (t : Time) : Firing.nextReal m cron v n t = Sched.nextReal cron s n t := by
  induction n generalizing t with
  | zero => rfl
  | succ n ih =>
    rw [Firing.nextReal, Sched.nextReal, ScheduleValue.cron_of_read hread]
    cases cron.next s.cron t with
    | none => rfl
    | some next =>
      dsimp only
      rw [ih]
      exact if_congr (hreal _) rfl rfl

theorem Firing.nextRun_eq (hread : v.read m = some s) (hreal : ∀ k, v.shouldRun k ↔ s.shouldRun k)
    (enabled : Bool) (now : Moment) :
    Firing.nextRun m cron v enabled now = Sched.nextRun cron s enabled now := by
  rw [Firing.nextRun, Sched.nextRun, ScheduleValue.cron_of_read hread, Firing.nextReal_eq hread hreal]

theorem value_runsAt (hread : v.read m = some s) (hvalid : s.validate cron = none) (hkind : s.Structured)
    (t : Time) : v.RunsAt m cron t ↔ s.spec.Fires t ∧ v.shouldRun (t / minuteSpan) := by
  have hruns := runsAt_iff hvalid hkind (t := t)
  unfold RunsAt at hruns
  unfold ScheduleValue.RunsAt
  rw [ScheduleValue.cron_of_read hread]
  have hspec := Schedule.read_cron hvalid hkind
  have hparse := cron.plain _ _ hspec
  have hne : s.cron ≠ [] := by
    intro hnil
    rw [hnil] at hspec
    cases hspec
  constructor
  · rintro ⟨-, fires, hfires, hfire, hreal⟩
    cases hparse.symm.trans hfires
    exact ⟨hfire, hreal⟩
  · rintro ⟨hfire, hreal⟩
    exact ⟨hne, _, hparse, hfire, hreal⟩

theorem not_fires (hread : v.read m = some s) (hvalid : s.validate cron = none) (hmiss : v.Misspelt s) :
    ¬ FiresAsDeclared m cron v s := by
  intro hfires
  have hkind : s.Structured := ⟨by simp [hmiss.1], by simp [hmiss.1]⟩
  obtain ⟨k, hmatches, hno⟩ := exists_undeclared hvalid hmiss.1 hmiss.2.1
  have hruns := (value_runsAt hread hvalid hkind (k * minuteSpan)).mpr
    ⟨CronSpec.fires_iff.mpr hmatches, hmiss.shouldRun _⟩
  obtain ⟨k', hk', hdeclared⟩ := (hfires.fires _).mp hruns
  rw [Int.eq_of_mul_eq_mul_right minuteSpan_pos.ne' hk'] at hno
  exact hno hdeclared

end

end ProxBack.Sched
