import Mathlib.Data.Int.LeastGreatest
import Mathlib.Order.Bounds.Basic
import ProxBack.Store.Timetable

/-! When a schedule fires next, as the scheduler tells it. -/
namespace ProxBack.Sched
open Lib Calendar Store
open Engine (Time)

/-- A reading of a machine's clock, in nanoseconds from 1970, and the offset of its zone in
seconds. -/
structure Moment where
  now : Int
  offset : Int
  zone : -86400 < offset ∧ offset < 86400

namespace Moment

def wall (m : Moment) : Time := m.now + m.offset * 10 ^ 9

def utc (m : Moment) (t : Time) : Time := t - m.offset * 10 ^ 9

def minute (m : Moment) : Int := m.wall / minuteSpan

end Moment

def nextRunProbes : Nat := 8

def nextReal (cron : Cron) (s : Schedule) : Nat → Time → Option Time
  | 0, _ => none
  | n + 1, t =>
    match cron.next s.cron t with
    | none => none
    | some next => if s.shouldRun (next / minuteSpan) then some next else nextReal cron s n next

def nextRun (cron : Cron) (s : Schedule) (enabled : Bool) (m : Moment) : Option Time :=
  if ¬ enabled ∨ s.cron = [] then none
  else if (cron.parse s.cron).isNone then none
  else (nextReal cron s nextRunProbes m.wall).map m.utc

def Due (s : Schedule) (k : Int) : Prop := s.spec.Matches k ∧ s.shouldRun k

section
variable {s : Schedule} {c : Cron} {k : Int}

def clockMinute (s : Schedule) : Int := s.clock.1 * 60 + s.clock.2

theorem clockMinute_bounds (hvalid : s.validate c = none)
    (hkind : s.kind = .daily ∨ s.kind = .weekly ∨ s.kind = .monthly) :
    0 ≤ clockMinute s ∧ clockMinute s < 1440 := by
  obtain ⟨hh, hm⟩ := Schedule.clock_of_valid hvalid hkind
  unfold clockMinute
  omega

theorem allows_one {n : Nat} {m : Int} : CronField.Allows (.oneOf [n]) m ↔ (n : Int) = m := by
  constructor
  · rintro ⟨m, hm, rfl⟩
    rw [List.mem_singleton.mp hm]
  · intro h
    exact ⟨n, List.mem_singleton_self n, h⟩

theorem allows_clock (hvalid : s.validate c = none)
    (hkind : s.kind = .daily ∨ s.kind = .weekly ∨ s.kind = .monthly) :
    CronField.Allows (.oneOf [s.clock.2]) (k % 60) ∧ CronField.Allows (.oneOf [s.clock.1]) (k % 1440 / 60) ↔
      k % 1440 = clockMinute s := by
  obtain ⟨hh, hm⟩ := Schedule.clock_of_valid hvalid hkind
  rw [allows_one, allows_one]
  unfold clockMinute
  omega

theorem due_hourly (hvalid : s.validate c = none) (hkind : s.kind = .hourly) :
    Due s k ↔ k % 60 = s.minute := by
  have hrange := (Schedule.validate_hourly hkind).mp hvalid
  unfold Due Schedule.spec
  rw [hkind]
  constructor
  · rintro ⟨hmatches, -⟩
    have hminute := allows_one.mp hmatches.minute
    omega
  · intro hminute
    exact ⟨⟨allows_one.mpr (by omega), trivial, trivial, trivial, trivial⟩, .inl (by simp [hkind])⟩

theorem due_daily (hvalid : s.validate c = none) (hkind : s.kind = .daily) :
    Due s k ↔ k % 1440 = clockMinute s := by
  rw [← allows_clock hvalid (.inl hkind)]
  unfold Due Schedule.spec
  rw [hkind]
  constructor
  · rintro ⟨hmatches, -⟩
    exact ⟨hmatches.minute, hmatches.hour⟩
  · rintro ⟨hminute, hhour⟩
    exact ⟨⟨hminute, hhour, trivial, trivial, trivial⟩, .inl (by simp [hkind])⟩

theorem due_weekly (hvalid : s.validate c = none) (hkind : s.kind = .weekly) :
    Due s k ↔ k % 1440 = clockMinute s ∧ weekday (dayOf k) ∈ s.normalized.weekdays := by
  obtain ⟨-, -, hrange⟩ := (Schedule.validate_weekly hkind).mp hvalid
  have hdays : CronField.Allows (.oneOf (s.normalized.weekdays.map Int.toNat)) (weekday (dayOf k)) ↔
      weekday (dayOf k) ∈ s.normalized.weekdays := by
    constructor
    · rintro ⟨n, hn, hday⟩
      obtain ⟨d, hd, rfl⟩ := List.mem_map.mp hn
      rw [Int.toNat_of_nonneg (hrange d hd).1] at hday
      exact hday ▸ hd
    · intro hd
      exact ⟨_, List.mem_map.mpr ⟨_, hd, rfl⟩, Int.toNat_of_nonneg (hrange _ hd).1⟩
  rw [← allows_clock hvalid (.inr (.inl hkind))]
  unfold Due Schedule.spec
  rw [hkind]
  constructor
  · rintro ⟨hmatches, -⟩
    exact ⟨⟨hmatches.minute, hmatches.hour⟩, hdays.mp hmatches.dow⟩
  · rintro ⟨⟨hminute, hhour⟩, hday⟩
    exact ⟨⟨hminute, hhour, trivial, trivial, hdays.mpr hday⟩, .inl (by simp [hkind])⟩

def DueDay (s : Schedule) (day : Int) : Prop :=
  if s.dayOfMonth ≥ Schedule.lastDayOfMonth then dayOfMonth day = monthLength (monthOf day)
  else dayOfMonth day = s.dayOfMonth

theorem due_monthly (hvalid : s.validate c = none) (hkind : s.kind = .monthly) :
    Due s k ↔ k % 1440 = clockMinute s ∧ DueDay s (dayOf k) := by
  obtain ⟨-, hday⟩ := (Schedule.validate_monthly hkind).mp hvalid
  have hbounds := dayOfMonth_bounds (dayOf k)
  have hlength := monthLength_bounds (monthOf (dayOf k))
  rw [← allows_clock hvalid (.inr (.inr hkind))]
  unfold Due Schedule.spec Schedule.shouldRun DueDay
  rw [hkind]
  dsimp only
  by_cases hlast : s.dayOfMonth ≥ Schedule.lastDayOfMonth
  · rw [if_pos hlast, if_pos hlast]
    constructor
    · rintro ⟨hmatches, h | h | h⟩
      · exact absurd rfl h
      · exact absurd h hlast.not_gt
      · exact ⟨⟨hmatches.minute, hmatches.hour⟩, h⟩
    · rintro ⟨⟨hminute, hhour⟩, hend⟩
      refine ⟨⟨hminute, hhour, ?_, trivial, trivial⟩, .inr (.inr hend)⟩
      dsimp only [CronField.Allows]
      omega
  · rw [if_neg hlast, if_neg hlast]
    constructor
    · rintro ⟨hmatches, -⟩
      have hdom := allows_one.mp hmatches.dom
      exact ⟨⟨hmatches.minute, hmatches.hour⟩, by omega⟩
    · rintro ⟨⟨hminute, hhour⟩, hdom⟩
      exact ⟨⟨hminute, hhour, allows_one.mpr (by omega), trivial, trivial⟩, .inr (.inl (not_le.mp hlast))⟩

end

section
variable {s : Schedule} {c : Cron} {t u : Time} {k : Int}

theorem lt_minute : t < k * minuteSpan ↔ t / minuteSpan < k := (Int.ediv_lt_iff_lt_mul minuteSpan_pos).symm

theorem minute_mul (k : Int) : k * minuteSpan / minuteSpan = k := Int.mul_ediv_cancel k minuteSpan_pos.ne'

@[grind =] theorem month_spec (s : Schedule) : s.spec.month = .any := by
  unfold Schedule.spec
  cases s.kind <;> rfl

theorem next_cron (hvalid : s.validate c = none) (hkind : s.Structured) :
    c.next s.cron t = some u ↔
      ∃ k, u = k * minuteSpan ∧ IsLeast {k | t / minuteSpan < k ∧ s.spec.Matches k} k := by
  rw [c.first _ _ _ _ (Schedule.read_cron hvalid hkind) (month_spec s)]
  constructor
  · rintro ⟨⟨k, rfl, hk⟩, hlt, hmin⟩
    refine ⟨k, rfl, ⟨lt_minute.mp hlt, hk⟩, fun k' hk' => ?_⟩
    have hle := hmin _ (CronSpec.fires_iff.mpr hk'.2) (lt_minute.mpr hk'.1)
    exact Int.le_of_mul_le_mul_right hle minuteSpan_pos
  · rintro ⟨k, rfl, ⟨hlt, hk⟩, hmin⟩
    refine ⟨CronSpec.fires_iff.mpr hk, lt_minute.mpr hlt, ?_⟩
    rintro _ ⟨k', rfl, hk'⟩ hlt'
    exact Int.mul_le_mul_of_nonneg_right (hmin ⟨lt_minute.mp hlt', hk'⟩) minuteSpan_pos.le

theorem due_of_nextReal (hvalid : s.validate c = none) (hkind : s.Structured) {n : Nat}
    (h : nextReal c s n t = some u) : ∃ k, u = k * minuteSpan ∧ Due s k := by
  induction n generalizing t with
  | zero => cases h
  | succ n ih =>
    rw [nextReal] at h
    cases hnext : c.next s.cron t with
    | none =>
      rw [hnext] at h
      cases h
    | some next =>
      rw [hnext] at h
      dsimp only at h
      split at h
      · rename_i hrun
        cases h
        obtain ⟨k, rfl, hk⟩ := (next_cron hvalid hkind).mp hnext
        rw [minute_mul] at hrun
        exact ⟨k, rfl, hk.1.2, hrun⟩
      · exact ih h

theorem exists_least {q : Int} {P : Int → Prop} (h : ∃ k, q < k ∧ P k) :
    ∃ k, IsLeast {k | q < k ∧ P k} k := by
  obtain ⟨k, hk, hmin⟩ := Int.exists_least_of_bdd ⟨q, fun k hk => hk.1.le⟩ h
  exact ⟨k, hk, hmin⟩

/-- A firing that is not real is followed by another one within the probes that are left, where
the firings before the first real one are on the days before it. -/
theorem nextReal_eq (hvalid : s.validate c = none) (hkind : s.Structured) {n : Nat}
    (hk : IsLeast {k | t / minuteSpan < k ∧ Due s k} k)
    (hdays : ∀ k', t / minuteSpan < k' → k' ≤ k → s.spec.Matches k' → dayOf k - n < dayOf k')
    (hapart : ∀ k' k'', s.spec.Matches k' → ¬ s.shouldRun k' → s.spec.Matches k'' → k' < k'' →
      dayOf k' < dayOf k'') :
    nextReal c s n t = some (k * minuteSpan) := by
  induction n generalizing t with
  | zero => exact absurd (hdays k hk.1.1 le_rfl hk.1.2.1) (by simp)
  | succ n ih =>
    obtain ⟨k', hk'⟩ := exists_least ⟨k, hk.1.1, hk.1.2.1⟩
    have hle : k' ≤ k := hk'.2 ⟨hk.1.1, hk.1.2.1⟩
    have hnext : c.next s.cron t = some (k' * minuteSpan) := (next_cron hvalid hkind).mpr ⟨k', rfl, hk'⟩
    rw [nextReal, hnext]
    dsimp only
    rw [minute_mul]
    by_cases hrun : s.shouldRun k'
    · have heq : k' = k := hle.antisymm (hk.2 ⟨hk'.1.1, hk'.1.2, hrun⟩)
      rw [if_pos hrun, heq]
    · rw [if_neg hrun]
      have hne : k' ≠ k := by
        rintro rfl
        exact hrun hk.1.2.2
      have hbefore := hdays k' hk'.1.1 hle hk'.1.2
      refine ih ⟨⟨by rw [minute_mul]; exact lt_of_le_of_ne hle hne, hk.1.2⟩, fun k'' hk'' => ?_⟩ fun k'' hlt hle' hmatches => ?_
      · rw [minute_mul] at hk''
        exact hk.2 ⟨hk'.1.1.trans hk''.1, hk''.2⟩
      · rw [minute_mul] at hlt
        have hday := hapart k' k'' hk'.1.2 hrun hmatches hlt
        have hcast : ((n + 1 : Nat) : Int) = n + 1 := rfl
        rw [hcast] at hbefore
        omega

/-- The firings of a last day schedule are on the days that can be the last one, at the minute
of the schedule. -/
theorem matches_last (hvalid : s.validate c = none) (hkind : s.kind = .monthly)
    (hlast : s.dayOfMonth ≥ Schedule.lastDayOfMonth) (h : s.spec.Matches k) :
    k % 1440 = clockMinute s ∧ 28 ≤ dayOfMonth (dayOf k) := by
  have hclock := (allows_clock (k := k) hvalid (.inr (.inr hkind))).mp
  unfold Schedule.spec at h
  rw [hkind] at h
  dsimp only at h
  rw [if_pos hlast] at h
  exact ⟨hclock ⟨h.minute, h.hour⟩, h.dom.1⟩

theorem due_last (hvalid : s.validate c = none) (hkind : s.kind = .monthly)
    (hlast : s.dayOfMonth ≥ Schedule.lastDayOfMonth) (month : Int) :
    Due s ((monthStart month + monthLength month - 1) * 1440 + clockMinute s) := by
  have hclock := clockMinute_bounds hvalid (.inr (.inr hkind))
  have hlength := monthLength_bounds month
  have hday : dayOf ((monthStart month + monthLength month - 1) * 1440 + clockMinute s) =
      monthStart month + monthLength month - 1 := by
    unfold dayOf
    omega
  rw [due_monthly hvalid hkind, DueDay, if_pos hlast, hday, monthOf_add (by omega) le_rfl,
    dayOfMonth_add (by omega) le_rfl]
  omega

theorem nextRun_eq {m : Moment} (hvalid : s.validate c = none) (hkind : s.Structured)
    (hk : IsLeast {k | m.minute < k ∧ Due s k} k) :
    nextRun c s true m = some (m.utc (k * minuteSpan)) := by
  have hread := Schedule.read_cron hvalid hkind
  have hne : s.cron ≠ [] := by
    intro hnil
    rw [hnil] at hread
    cases hread
  have hreal : nextReal c s nextRunProbes m.wall = some (k * minuteSpan) := by
    by_cases hlast : s.kind = .monthly ∧ s.dayOfMonth ≥ Schedule.lastDayOfMonth
    · obtain ⟨hmonthly, hlast⟩ := hlast
      refine nextReal_eq hvalid hkind hk (fun k' hlt hle hmatches => ?_) fun k' k'' hk' _ hk'' hlt => ?_
      · have hafter : m.minute < k' := hlt
        obtain ⟨hclock, hdom⟩ := matches_last hvalid hmonthly hlast hmatches
        -- no later than the last day of the firing's own month
        have hend := hk.2 ⟨?_, due_last hvalid hmonthly hlast (monthOf (dayOf k'))⟩
        all_goals
          have hday := monthStart_dayOfMonth (dayOf k')
          have hbounds := dayOfMonth_bounds (dayOf k')
          have hlength := monthLength_bounds (monthOf (dayOf k'))
          have hprobes : (nextRunProbes : Int) = 8 := rfl
          unfold dayOf at *
          omega
      · have hclock := (matches_last hvalid hmonthly hlast hk').1
        have hclock' := (matches_last hvalid hmonthly hlast hk'').1
        unfold dayOf
        omega
    · have hall : ∀ k, s.shouldRun k := by
        intro k
        by_cases hmonthly : s.kind = .monthly
        · exact .inr (.inl (not_le.mp fun h => hlast ⟨hmonthly, h⟩))
        · exact .inl hmonthly
      refine nextReal_eq hvalid hkind hk (fun k' hlt hle hmatches => ?_) fun k' _ _ hno => absurd (hall k') hno
      rw [hle.antisymm (hk.2 ⟨hlt, hmatches, hall k'⟩)]
      exact Int.sub_lt_self _ (by decide)
  rw [nextRun, if_neg (by simp [hne]), if_neg (by simp [c.plain _ _ hread]), hreal, Option.map_some]

theorem due_of_nextRun {m : Moment} (hvalid : s.validate c = none) (hkind : s.Structured)
    (h : nextRun c s true m = some u) : ∃ k, u = m.utc (k * minuteSpan) ∧ Due s k := by
  unfold nextRun at h
  split at h
  · cases h
  split at h
  · cases h
  obtain ⟨t, ht, rfl⟩ := Option.map_eq_some_iff.mp h
  obtain ⟨k, rfl, hk⟩ := due_of_nextReal hvalid hkind ht
  exact ⟨k, rfl, hk⟩

end

end ProxBack.Sched
