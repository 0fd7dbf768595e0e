import ProxBack.Web.NextRun

/-! When the console's preview is the scheduler's answer. -/
namespace ProxBack.Web
open Lib Calendar JsDate Store Sched
open Engine (Time)

def Shows (s : Schedule) (named : Bool) (m : Reading) (k : Int) : Prop :=
  nextRunOf (marshal s.normalized) named (clockOf m) = some (k * 60000)

section
variable {s : Schedule} {c : Cron} {m : Reading} {named : Bool} {k : Int}

theorem agrees_of_shows (hvalid : s.validate c = none) (hkind : s.Structured) (hshows : Shows s named m k)
    (hk : IsLeast {k | m.minute < k ∧ Due s k} k) : PreviewAgrees c s named m := by
  rw [PreviewAgrees, hshows, Option.map_some, instantOf_minute, nextRun_eq hvalid hkind hk]

theorem not_agrees_of_shows (hvalid : s.validate c = none) (hkind : s.Structured)
    (hshows : Shows s named m k) (hk : ¬ Due s k) : ¬ PreviewAgrees c s named m := by
  intro h
  rw [PreviewAgrees, hshows, Option.map_some, instantOf_minute] at h
  obtain ⟨k', heq, hk'⟩ := due_of_nextRun hvalid hkind h.symm
  have hspan : k * minuteSpan = k' * minuteSpan := sub_left_injective heq
  rw [Int.eq_of_mul_eq_mul_right minuteSpan_pos.ne' hspan] at hk
  exact hk hk'

theorem hourly_agrees (hvalid : s.validate c = none) (hkind : s.kind = .hourly) :
    PreviewAgrees c s named m := by
  obtain ⟨hminute, -⟩ := serverNow_spec named m
  have hrange := (Schedule.validate_hourly hkind).mp hvalid
  have hnorm : s.normalized.kind = .hourly := hkind
  have hwire : (marshal s.normalized).kind = .hourly ∧ (marshal s.normalized).minute.getD 0 = s.minute := by
    rw [marshal, hnorm]
    exact ⟨rfl, rfl⟩
  have hnext : setMinutes (setSeconds (serverNow named (clockOf m)) 0 0) s.minute =
      (m.minute / 60 * 60 + s.minute) * 60000 := by
    rw [setSeconds_zero, hminute, setMinutes_minute]
  have hshows : Shows s named m (if m.minute / 60 * 60 + s.minute ≤ m.minute then
      m.minute / 60 * 60 + s.minute + 60 else m.minute / 60 * 60 + s.minute) := by
    rw [Shows, nextRunOf, hwire.1]
    dsimp only
    rw [hwire.2, hnext, setHours_next]
    by_cases hpast : m.minute / 60 * 60 + s.minute ≤ m.minute
    · rw [if_pos (by omega), if_pos hpast, Int.add_mul _ 60]
      rfl
    · rw [if_neg (by omega), if_neg hpast]
  refine agrees_of_shows hvalid (by simp [Schedule.Structured, hkind]) hshows ⟨⟨?_, ?_⟩, fun k hk => ?_⟩
  · split <;> omega
  · rw [due_hourly hvalid hkind]
    split <;> omega
  · have hdue := (due_hourly hvalid hkind).mp hk.2
    have hafter := hk.1
    split <;> omega

theorem isLeast_day {q clock d : Int} (hclock : 0 ≤ clock ∧ clock < 1440) {P : Int → Prop} (hP : P d)
    (hafter : q < d * 1440 + clock) (hmin : ∀ d', P d' → q < d' * 1440 + clock → d ≤ d') :
    IsLeast {k | q < k ∧ k % 1440 = clock ∧ P (dayOf k)} (d * 1440 + clock) := by
  have hday : dayOf (d * 1440 + clock) = d := by
    unfold dayOf
    omega
  refine ⟨⟨hafter, by omega, by rwa [hday]⟩, fun k hk => ?_⟩
  have hk' : k = dayOf k * 1440 + clock := by
    have hmod := hk.2.1
    unfold dayOf
    omega
  have hle := hmin (dayOf k) hk.2.2 (by rw [← hk']; exact hk.1)
  omega

theorem daily_agrees (hvalid : s.validate c = none) (hkind : s.kind = .daily) :
    PreviewAgrees c s named m := by
  obtain ⟨hminute, -⟩ := serverNow_spec named m
  have hclock := clockMinute_bounds hvalid (.inl hkind)
  have hnorm : s.normalized.kind = .daily := hkind
  have hwire : (marshal s.normalized).kind = .daily ∧ (marshal s.normalized).time = s.normalized.time := by
    rw [marshal, hnorm]
    exact ⟨rfl, rfl⟩
  have hnext : setHours (setSeconds (serverNow named (clockOf m)) 0 0) s.clock.1 s.clock.2 =
      (dayOf m.minute * 1440 + clockMinute s) * 60000 := by
    rw [setSeconds_zero, hminute, setHours_minute]
    unfold dayOf clockMinute
    omega
  have hshows : Shows s named m ((if dayOf m.minute * 1440 + clockMinute s ≤ m.minute then
      dayOf m.minute + 1 else dayOf m.minute) * 1440 + clockMinute s) := by
    rw [Shows, nextRunOf, hwire.1]
    dsimp only
    rw [hwire.2, timeParts_of_valid hvalid (.inl hkind)]
    dsimp only
    rw [hnext, setDate_add]
    by_cases hpast : dayOf m.minute * 1440 + clockMinute s ≤ m.minute
    · rw [if_pos (by omega), if_pos hpast]
      congr 1
      omega
    · rw [if_neg (by omega), if_neg hpast]
  have hdue : {k | m.minute < k ∧ Due s k} = {k | m.minute < k ∧ k % 1440 = clockMinute s ∧ True} := by
    ext k
    rw [Set.mem_ofPred_eq, due_daily hvalid hkind, Set.mem_ofPred_eq, and_true]
  refine agrees_of_shows hvalid (by simp [Schedule.Structured, hkind]) hshows ?_
  rw [hdue]
  refine isLeast_day (P := fun _ => True) hclock trivial ?_ fun d _ hafter => ?_
  · unfold dayOf
    split <;> omega
  · unfold dayOf
    split <;> omega

@[grind =] theorem day_minute (k : Int) : day (k * 60000) = dayOf k := by
  unfold day dayOf
  omega

theorem weeklyCandidate_eq {now : Int} (hnow : now / 60000 = m.minute) (s : Schedule) (offset : Nat) :
    weeklyCandidate now s.clock.1 s.clock.2 offset =
      ((dayOf m.minute + offset) * 1440 + clockMinute s) * 60000 := by
  have hdate : m.minute * 60000 + offset * 86400000 = (m.minute + offset * 1440) * 60000 := by omega
  rw [weeklyCandidate, setSeconds_zero, hnow, setDate_add, hdate, setHours_minute]
  unfold dayOf clockMinute
  omega

theorem weekly_agrees (hvalid : s.validate c = none) (hkind : s.kind = .weekly) :
    PreviewAgrees c s named m := by
  obtain ⟨hminute, -⟩ := serverNow_spec named m
  have hclock := clockMinute_bounds hvalid (.inr (.inl hkind))
  obtain ⟨-, hne, hrange⟩ := (Schedule.validate_weekly hkind).mp hvalid
  have hnorm : s.normalized.kind = .weekly := hkind
  have hwire : (marshal s.normalized).kind = .weekly ∧ (marshal s.normalized).time = s.normalized.time ∧
      (marshal s.normalized).weekdays = s.normalized.weekdays := by
    rw [marshal, hnorm]
    exact ⟨rfl, rfl, normalizeWeekdays_normalizeWeekdays _⟩
  have hcandidate := weeklyCandidate_eq hminute s
  -- what the loop asks of an offset, in days
  have hwanted : ∀ offset : Nat, decide
      (getDay (weeklyCandidate (serverNow named (clockOf m)) s.clock.1 s.clock.2 offset) ∈
          s.normalized.weekdays ∧
        weeklyCandidate (serverNow named (clockOf m)) s.clock.1 s.clock.2 offset > serverNow named (clockOf m)) =
      decide (weekday (dayOf m.minute + offset) ∈ s.normalized.weekdays ∧
        m.minute < (dayOf m.minute + offset) * 1440 + clockMinute s) := by
    intro offset
    have hday : dayOf ((dayOf m.minute + offset) * 1440 + clockMinute s) = dayOf m.minute + offset := by
      unfold dayOf
      omega
    rw [hcandidate, getDay, day_minute, hday, decide_eq_decide, and_congr_right_iff]
    intro _
    omega
  obtain ⟨day, hday⟩ := List.exists_mem_of_ne_nil _ hne
  obtain ⟨ahead, hpos, hweek, hahead⟩ := exists_weekday (dayOf m.minute) (hrange day hday)
  obtain ⟨offset, hoffset⟩ : ∃ offset, (List.range 8).find? (fun offset : Nat =>
      decide (weekday (dayOf m.minute + offset) ∈ s.normalized.weekdays ∧
        m.minute < (dayOf m.minute + offset) * 1440 + clockMinute s)) = some offset := by
    rw [← Option.isSome_iff_exists, List.find?_isSome]
    refine ⟨ahead, List.mem_range.mpr (by omega), decide_eq_true ⟨by rwa [hahead], ?_⟩⟩
    unfold dayOf
    omega
  obtain ⟨hfound, hmem, hbefore⟩ := List.find?_range_eq_some.mp hoffset
  obtain ⟨hweekday, hafter⟩ := of_decide_eq_true hfound
  have hshows : Shows s named m ((dayOf m.minute + offset) * 1440 + clockMinute s) := by
    rw [Shows, nextRunOf, hwire.1]
    dsimp only
    rw [hwire.2.1, hwire.2.2, timeParts_of_valid hvalid (.inr (.inl hkind)), if_neg hne]
    dsimp only
    simp only [hwanted]
    rw [hoffset, Option.map_some, hcandidate]
  have hdue : {k | m.minute < k ∧ Due s k} = {k | m.minute < k ∧ k % 1440 = clockMinute s ∧
      weekday (dayOf k) ∈ s.normalized.weekdays} := by
    ext k
    rw [Set.mem_ofPred_eq, due_weekly hvalid hkind, Set.mem_ofPred_eq]
  refine agrees_of_shows hvalid (by simp [Schedule.Structured, hkind]) hshows ?_
  rw [hdue]
  refine isLeast_day (P := fun d => weekday d ∈ s.normalized.weekdays) hclock hweekday hafter
    fun d hd hafter' => ?_
  by_contra hlt
  have hnext : dayOf m.minute ≤ d := by
    unfold dayOf
    omega
  obtain ⟨n, hn⟩ := Int.eq_ofNat_of_zero_le (show 0 ≤ d - dayOf m.minute by omega)
  have hd' : d = dayOf m.minute + n := by omega
  have hno := hbefore n (by omega)
  rw [hd'] at hd hafter'
  rw [decide_eq_true ⟨hd, hafter'⟩] at hno
  cases hno

def clampedMinute (s : Schedule) (month : Int) : Int :=
  (monthStart month + min s.dayOfMonth (monthLength month) - 1) * 1440 + clockMinute s

def previewMonth (s : Schedule) (m : Reading) : Int :=
  if m.minute < clampedMinute s (monthOf (dayOf m.minute)) then monthOf (dayOf m.minute)
  else monthOf (dayOf m.minute) + 1

theorem monthlyCandidate_eq {now : Int} (hnow : now / 60000 = m.minute) (hyear : 100 ≤ getFullYear now)
    (s : Schedule) (offset : Nat) :
    monthlyCandidate now s.clock.1 s.clock.2 s.dayOfMonth offset =
      clampedMinute s (monthOf (dayOf m.minute) + offset) * 60000 := by
  have hmonth : monthOf (day now) = monthOf (dayOf m.minute) := by
    have hsame : day now = dayOf m.minute := by
      unfold day dayOf
      omega
    rw [hsame]
  unfold monthlyCandidate
  rw [ofParts_month hyear, hmonth]
  generalize hmonth' : monthOf (dayOf m.minute) + (offset : Int) = month
  generalize hfirst : ((monthStart month + 1 - 1) * 1440 + 0 * 60 + 0) * 60000 = probe
  have hlength := monthLength_bounds month
  -- the date that is looked at is in the month it is meant for
  have hprobe : monthOf (day probe) = month := by
    have hday : day probe = monthStart month + 1 - 1 := by
      unfold day
      omega
    rw [hday]
    exact monthOf_add (by omega) (by omega)
  have hyear' : 100 ≤ getFullYear probe := by
    unfold getFullYear at hyear ⊢
    rw [hprobe]
    rw [hmonth] at hyear
    omega
  have hlast : lastDayOfMonth (getFullYear probe) (getMonth probe) = monthLength month := by
    have hend : dayOf ((monthStart (month + 1) + 0 - 1) * 1440 + 0 * 60 + 0) =
        monthStart month + monthLength month - 1 := by
      rw [monthStart_succ]
      unfold dayOf
      omega
    rw [lastDayOfMonth, ofParts_month hyear', hprobe, getDate, day_minute, hend]
    exact dayOfMonth_add (by omega) le_rfl
  have hcandidate := ofParts_month hyear' 0 (min s.dayOfMonth (monthLength month)) s.clock.1 s.clock.2
  rw [Int.add_zero, hprobe, Int.add_zero] at hcandidate
  dsimp only
  rw [hlast, hcandidate, clampedMinute, clockMinute, Int.add_assoc]

theorem shows_monthly (hvalid : s.validate c = none) (hkind : s.kind = .monthly) :
    Shows s named m (clampedMinute s (previewMonth s m)) := by
  obtain ⟨hminute, hyear⟩ := serverNow_spec named m
  have hclock := clockMinute_bounds hvalid (.inr (.inr hkind))
  obtain ⟨-, hday⟩ := (Schedule.validate_monthly hkind).mp hvalid
  have hnorm : s.normalized.kind = .monthly := hkind
  have hwire : (marshal s.normalized).kind = .monthly ∧ (marshal s.normalized).time = s.normalized.time ∧
      (marshal s.normalized).dayOfMonth.getD 0 = s.dayOfMonth := by
    rw [marshal, hnorm]
    exact ⟨rfl, rfl, rfl⟩
  have hcandidate := monthlyCandidate_eq hminute hyear s
  have hwanted : ∀ offset : Nat, decide
      (monthlyCandidate (serverNow named (clockOf m)) s.clock.1 s.clock.2 s.dayOfMonth offset >
        serverNow named (clockOf m)) =
      decide (m.minute < clampedMinute s (monthOf (dayOf m.minute) + offset)) := by
    intro offset
    rw [hcandidate, decide_eq_decide]
    omega
  -- the next month's day is ahead in any case
  have hnext : m.minute < clampedMinute s (monthOf (dayOf m.minute) + 1) := by
    have hspec := (monthOf_spec (dayOf m.minute)).2
    have hlength := monthLength_bounds (monthOf (dayOf m.minute) + 1)
    unfold clampedMinute
    unfold dayOf at *
    omega
  have hfound : ((List.range 14).find? fun offset : Nat =>
      decide (m.minute < clampedMinute s (monthOf (dayOf m.minute) + offset))) =
        some (if m.minute < clampedMinute s (monthOf (dayOf m.minute)) then 0 else 1) := by
    have hzero : monthOf (dayOf m.minute) + ((0 : Nat) : Int) = monthOf (dayOf m.minute) := Int.add_zero _
    rw [List.find?_range_eq_some]
    by_cases hthis : m.minute < clampedMinute s (monthOf (dayOf m.minute))
    · rw [if_pos hthis, hzero]
      exact ⟨decide_eq_true hthis, by decide, by simp⟩
    · rw [if_neg hthis]
      refine ⟨decide_eq_true hnext, by decide, fun offset hlt => ?_⟩
      rw [Nat.lt_one_iff.mp hlt, hzero, decide_eq_false hthis]
      rfl
  rw [Shows, nextRunOf, hwire.1]
  dsimp only
  rw [hwire.2.1, hwire.2.2, timeParts_of_valid hvalid (.inr (.inr hkind))]
  dsimp only
  simp only [hwanted]
  rw [hfound, Option.map_some, hcandidate, previewMonth]
  split
  · rw [Int.natCast_zero, Int.add_zero]
  · rfl

theorem eq_of_dueDay (hday : 1 ≤ s.dayOfMonth ∧ s.dayOfMonth ≤ 31) {d : Int} (h : DueDay s d) :
    d * 1440 + clockMinute s = clampedMinute s (monthOf d) := by
  have hbounds := dayOfMonth_bounds d
  have hlength := monthLength_bounds (monthOf d)
  have hd := monthStart_dayOfMonth d
  have hsame : dayOfMonth d = min s.dayOfMonth (monthLength (monthOf d)) := by
    unfold DueDay Schedule.lastDayOfMonth at h
    split at h <;> omega
  unfold clampedMinute
  omega

/-- The day of a monthly schedule, short of the last, is one that the month of the preview does
not have. -/
def ShortMonth (s : Schedule) (m : Reading) : Prop :=
  s.kind = .monthly ∧ s.dayOfMonth < Schedule.lastDayOfMonth ∧
    monthLength (previewMonth s m) < s.dayOfMonth

theorem dayOf_clampedMinute (hvalid : s.validate c = none) (hkind : s.kind = .monthly) (month : Int) :
    dayOf (clampedMinute s month) = monthStart month + min s.dayOfMonth (monthLength month) - 1 ∧
      clampedMinute s month % 1440 = clockMinute s := by
  have hclock := clockMinute_bounds hvalid (.inr (.inr hkind))
  unfold clampedMinute dayOf
  omega

theorem clamped_day (hday : 1 ≤ s.dayOfMonth ∧ s.dayOfMonth ≤ 31) (month : Int) :
    monthOf (monthStart month + min s.dayOfMonth (monthLength month) - 1) = month ∧
      dayOfMonth (monthStart month + min s.dayOfMonth (monthLength month) - 1) =
        min s.dayOfMonth (monthLength month) := by
  have hlength := monthLength_bounds month
  exact ⟨monthOf_add (by omega) (by omega), dayOfMonth_add (by omega) (by omega)⟩

theorem not_due_of_short (hvalid : s.validate c = none) (hshort : ShortMonth s m) :
    ¬ Due s (clampedMinute s (previewMonth s m)) := by
  obtain ⟨hkind, hbelow, hlength⟩ := hshort
  obtain ⟨-, hday⟩ := (Schedule.validate_monthly hkind).mp hvalid
  obtain ⟨-, hdate⟩ := clamped_day hday (previewMonth s m)
  rw [due_monthly hvalid hkind, (dayOf_clampedMinute hvalid hkind _).1]
  rintro ⟨-, hdue⟩
  rw [DueDay, if_neg hbelow.not_ge, hdate] at hdue
  omega

theorem isLeast_clamped (hvalid : s.validate c = none) (hkind : s.kind = .monthly)
    (hshort : ¬ ShortMonth s m) :
    IsLeast {k | m.minute < k ∧ Due s k} (clampedMinute s (previewMonth s m)) := by
  have hclock := clockMinute_bounds hvalid (.inr (.inr hkind))
  obtain ⟨-, hday⟩ := (Schedule.validate_monthly hkind).mp hvalid
  have hlength := monthLength_bounds (previewMonth s m)
  obtain ⟨hmonth, hdate⟩ := clamped_day hday (previewMonth s m)
  have hdue : {k | m.minute < k ∧ Due s k} =
      {k | m.minute < k ∧ k % 1440 = clockMinute s ∧ DueDay s (dayOf k)} := by
    ext k
    rw [Set.mem_ofPred_eq, due_monthly hvalid hkind, Set.mem_ofPred_eq]
  rw [hdue]
  refine isLeast_day hclock ?_ ?_ fun d hd hafter => ?_
  · unfold DueDay
    rw [hmonth, hdate]
    split
    · rename_i hlast
      unfold Schedule.lastDayOfMonth at hlast
      omega
    · rename_i hlast
      have hlong : ¬ monthLength (previewMonth s m) < s.dayOfMonth :=
        fun h => hshort ⟨hkind, not_le.mp hlast, h⟩
      omega
  · have hspec := (monthOf_spec (dayOf m.minute)).2
    unfold previewMonth
    split
    · assumption
    · have hlength := monthLength_bounds (monthOf (dayOf m.minute) + 1)
      unfold dayOf at *
      omega
  · -- a day that is due and ahead is in the month of the preview, or in a later one
    have hplace := eq_of_dueDay hday hd
    have htoday : dayOf m.minute ≤ d := by
      unfold dayOf
      omega
    have hle := monthOf_mono htoday
    rcases lt_trichotomy (monthOf d) (previewMonth s m) with hlt | heq | hgt
    · unfold previewMonth at hlt
      split at hlt
      · omega
      · rename_i hpast
        have hthis : monthOf d = monthOf (dayOf m.minute) := by omega
        rw [hplace, hthis] at hafter
        exact absurd hafter hpast
    · rw [heq] at hplace
      unfold clampedMinute at hplace
      omega
    · have hnext := monthStart_mono (show previewMonth s m + 1 ≤ monthOf d by omega)
      have hspec := (monthOf_spec d).1
      rw [monthStart_succ] at hnext
      omega

/-- The console shows the scheduler's answer, except in the weeks before the end of a month that
a monthly schedule's day is missing from. -/
theorem previewAgrees_iff (hvalid : s.validate c = none) (hkind : s.Structured) :
    PreviewAgrees c s named m ↔ ¬ ShortMonth s m := by
  have hother : s.kind ≠ .monthly → ¬ ShortMonth s m := fun hne hshort => hne hshort.1
  cases hk : s.kind with
  | manual => exact absurd hk hkind.1
  | advanced => exact absurd hk hkind.2
  | hourly => exact iff_of_true (hourly_agrees hvalid hk) (hother (by simp [hk]))
  | daily => exact iff_of_true (daily_agrees hvalid hk) (hother (by simp [hk]))
  | weekly => exact iff_of_true (weekly_agrees hvalid hk) (hother (by simp [hk]))
  | monthly =>
    have hshows : Shows s named m (clampedMinute s (previewMonth s m)) := shows_monthly hvalid hk
    constructor
    · intro hagrees hshort
      exact not_agrees_of_shows hvalid hkind hshows (not_due_of_short hvalid hshort) hagrees
    · intro hshort
      exact agrees_of_shows hvalid hkind hshows (isLeast_clamped hvalid hk hshort)

end

/-- On the last day of each month, a day after the year began. -/
theorem last_day_previewed :
    Schedule.validate plainCron ⟨.monthly, 0, "01:00", [], 31, ""⟩ = none ∧
      PreviewAgrees plainCron ⟨.monthly, 0, "01:00", [], 31, ""⟩ true
        ⟨⟨86400 * 10 ^ 9, 3600, by decide⟩, by decide⟩ := by
  have hvalid : Schedule.validate plainCron ⟨.monthly, 0, "01:00", [], 31, ""⟩ = none :=
    (Schedule.validate_monthly rfl).mpr (by decide +kernel)
  refine ⟨hvalid, (previewAgrees_iff hvalid ⟨nofun, nofun⟩).mpr ?_⟩
  rintro ⟨-, hbelow, -⟩
  exact absurd hbelow (by decide)

/-- The 30th, in February: the console shows the 28th, when nothing runs. -/
theorem thirtieth_misleads :
    Schedule.validate plainCron ⟨.monthly, 0, "01:00", [], 30, ""⟩ = none ∧
      nextRunOf (marshal (Schedule.normalized ⟨.monthly, 0, "01:00", [], 30, ""⟩)) false
        (clockOf ⟨⟨35 * 86400 * 10 ^ 9, 0, by decide⟩, by decide⟩) = some ((58 * 1440 + 60) * 60000) ∧
      ¬ PreviewAgrees plainCron ⟨.monthly, 0, "01:00", [], 30, ""⟩ false
        ⟨⟨35 * 86400 * 10 ^ 9, 0, by decide⟩, by decide⟩ := by
  have hvalid : Schedule.validate plainCron ⟨.monthly, 0, "01:00", [], 30, ""⟩ = none :=
    (Schedule.validate_monthly rfl).mpr (by decide +kernel)
  refine ⟨hvalid, by decide +kernel, ?_⟩
  refine not_agrees_of_shows hvalid ⟨nofun, nofun⟩ (shows_monthly hvalid rfl)
    (not_due_of_short hvalid ⟨rfl, by decide, ?_⟩)
  decide +kernel

end ProxBack.Web
