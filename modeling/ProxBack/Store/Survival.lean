import ProxBack.Store.ScheduleValue

/-! A schedule outlives the database: what is read back has the same timing, and so has its
expression where it is taken for one of an earlier release. -/
namespace ProxBack.Store
open Lib Text Calendar
open Engine (Time)

/-- `encodeSchedule`, of one of the six kinds. -/
def ScheduleValue.encode (m : CaseMap) (v : ScheduleValue) : Option ScheduleColumn :=
  (v.read m).map encodeSchedule

structure SameTiming (m : CaseMap) (v : ScheduleValue) (back : Schedule) : Prop where
  cron : back.cron = v.cron m
  shouldRun : ∀ k, back.shouldRun k ↔ v.shouldRun k

/-- What is read back from the database is the schedule that was written, and the expression of
one that is not the user's own is read as that schedule. -/
structure Survives (m : CaseMap) (v : ScheduleValue) (s : Schedule) : Prop where
  stored : ∃ column, v.encode m = some column ∧ SameTiming m v (decodeSchedule column) ∧
    (decodeSchedule column).rpo = v.rpo m ∧ (decodeSchedule column).label = v.label m
  legacy : s.kind ≠ .advanced → SameTiming m v (parseLegacySchedule (v.cron m))

section
variable {s : Schedule}

@[simp] theorem Schedule.cron_manual (hkind : s.kind = .manual) : s.cron = [] := by
  have hnorm : s.normalized.kind = .manual := hkind
  unfold Schedule.cron
  dsimp only
  rw [hnorm]

@[simp] theorem Schedule.cron_hourly (hkind : s.kind = .hourly) :
    s.cron = Schedule.line (itoa s.minute) ['*'] ['*'] ['*'] := by
  have hnorm : s.normalized.kind = .hourly := hkind
  unfold Schedule.cron
  dsimp only
  rw [hnorm]
  rfl

theorem Schedule.cron_daily (hkind : s.kind = .daily) :
    s.cron = Schedule.line (itoa s.clock.2) (itoa s.clock.1) ['*'] ['*'] := by
  have hnorm : s.normalized.kind = .daily := hkind
  unfold Schedule.cron
  dsimp only
  rw [hnorm]
  rfl

theorem Schedule.cron_weekly (hkind : s.kind = .weekly) (hne : s.normalized.weekdays ≠ []) :
    s.cron = Schedule.line (itoa s.clock.2) (itoa s.clock.1) ['*']
      ([','].intercalate (s.normalized.weekdays.map itoa)) := by
  have hnorm : s.normalized.kind = .weekly := hkind
  unfold Schedule.cron
  dsimp only
  rw [hnorm]
  exact if_neg hne

theorem Schedule.cron_monthly (hkind : s.kind = .monthly) (hday : 1 ≤ s.dayOfMonth) :
    s.cron = Schedule.line (itoa s.clock.2) (itoa s.clock.1)
      (if s.dayOfMonth ≥ Schedule.lastDayOfMonth then Schedule.lastDayCronDays else itoa s.dayOfMonth)
      ['*'] := by
  have hnorm : s.normalized.kind = .monthly := hkind
  have hsame : s.normalized.dayOfMonth = s.dayOfMonth := rfl
  unfold Schedule.cron
  dsimp only
  rw [hnorm]
  dsimp only
  rw [hsame]
  by_cases hlast : s.dayOfMonth ≥ Schedule.lastDayOfMonth
  · rw [if_pos hlast, if_pos hlast]
    rfl
  · rw [if_neg hlast, if_neg hlast, if_neg (by omega)]
    rfl

end

theorem ne_of_cronInt {a b : List Char} {lo hi n : Nat} (ha : cronInt a lo hi = some n)
    (hb : cronInt b lo hi = none) : a ≠ b := by
  rintro rfl
  exact nomatch ha.symm.trans hb

theorem parseLegacySchedule_of_preset {raw : List Char} {s : Schedule} (h : schedulePreset raw = some s) :
    parseLegacySchedule raw = s := by
  have htrim : schedulePreset (trimSpace raw) = some s := by
    rw [schedulePreset, fields_trimSpace, ← h, schedulePreset]
  have hmanual : ¬ (trimSpace raw = [] ∨ trimSpace raw = ['m', 'a', 'n', 'u', 'a', 'l']) := by
    rintro (hraw | hraw)
    all_goals
      rw [hraw] at htrim
      cases htrim
  rw [parseLegacySchedule, if_neg hmanual, htrim]

theorem schedulePreset_hourly {minute : Nat} (hm : minute ≤ 59) :
    schedulePreset (Schedule.line (itoa minute) ['*'] ['*'] ['*']) =
      some ⟨.hourly, minute, "", [], 0, ""⟩ := by
  rw [schedulePreset, Schedule.line,
    fields_five (isWord_itoa (by omega)) isWord_star isWord_star isWord_star isWord_star]
  dsimp only
  rw [if_neg (not_not.mpr rfl), cronInt_itoa (by omega) (Nat.zero_le _) hm]
  dsimp only
  rw [if_pos rfl, if_pos ⟨rfl, rfl⟩]

section
variable {hour minute : Nat}

theorem schedulePreset_timed (hh : hour ≤ 23) (hm : minute ≤ 59) {dom dow : List Char}
    (hdom : IsWord dom) (hdow : IsWord dow) :
    schedulePreset (Schedule.line (itoa minute) (itoa hour) dom dow) =
      if dom = ['*'] ∧ dow = ['*'] then some ⟨.daily, 0, clockText hour minute, [], 0, ""⟩
      else if dom = ['*'] then
        (cronIntList dow 0 6).map fun days => ⟨.weekly, 0, clockText hour minute, days, 0, ""⟩
      else if dow = ['*'] then
        if dom = Schedule.lastDayCronDays then
          some ⟨.monthly, 0, clockText hour minute, [], Schedule.lastDayOfMonth, ""⟩
        else (cronInt dom 1 31).map fun (day : Nat) =>
          ⟨.monthly, 0, clockText hour minute, [], (day : Int), ""⟩
      else none := by
  have hhour : cronInt (itoa hour) 0 23 = some hour := cronInt_itoa (by omega) (Nat.zero_le _) hh
  rw [schedulePreset, Schedule.line,
    fields_five (isWord_itoa (by omega)) (isWord_itoa (by omega)) hdom isWord_star hdow]
  dsimp only
  rw [if_neg (not_not.mpr rfl), cronInt_itoa (by omega) (Nat.zero_le _) hm]
  dsimp only
  rw [if_neg (ne_of_cronInt hhour (by decide)), hhour]

theorem cronIntList_weekdays {days : List Int} (hne : days ≠ []) (hrange : ∀ d ∈ days, 0 ≤ d ∧ d ≤ 6) :
    cronIntList ([','].intercalate (days.map itoa)) 0 6 = some (normalizeWeekdays days) := by
  have htrim : ∀ part ∈ days.map itoa, cronInt (trimSpace part) 0 6 = cronInt part 0 6 := by
    intro part hpart
    obtain ⟨d, hd, rfl⟩ := List.mem_map.mp hpart
    obtain ⟨c, hc, hspace, -⟩ := Schedule.itoa_weekday (hrange d hd)
    rw [trimSpace_of_forall]
    rw [hc]
    exact fun c' hc' => List.mem_singleton.mp hc' ▸ hspace
  have hback : (days.map Int.toNat).map Int.ofNat = days := by
    rw [List.map_map]
    conv_rhs => rw [← List.map_id days]
    exact List.map_congr_left fun d hd => Int.toNat_of_nonneg (hrange d hd).1
  rw [cronIntList, Schedule.splitOn_weekdays hne hrange, mapM_congr htrim,
    Schedule.cronInt_weekdays hrange, Option.map_some, hback]

end

structure Alike (back s : Schedule) : Prop where
  cron : back.cron = s.cron
  shouldRun : ∀ k, back.shouldRun k ↔ s.shouldRun k

section
variable {s : Schedule} {hour minute : Nat}

theorem alike_of_preset {preset : Schedule} (hpreset : schedulePreset s.cron = some preset)
    (hcron : preset.cron = s.cron) (hreal : ∀ k, preset.shouldRun k ↔ s.shouldRun k) :
    Alike (parseLegacySchedule s.cron) s := by
  rw [parseLegacySchedule_of_preset hpreset]
  exact ⟨hcron, hreal⟩

theorem shouldRun_congr {back : Schedule} (hback : back.kind ≠ .monthly) (hkind : s.kind ≠ .monthly)
    (k : Int) : back.shouldRun k ↔ s.shouldRun k := iff_of_true (.inl hback) (.inl hkind)

theorem alike_manual (hkind : s.kind = .manual) : Alike (parseLegacySchedule s.cron) s := by
  rw [Schedule.cron_manual hkind]
  refine ⟨?_, shouldRun_congr nofun (by simp [hkind])⟩
  rw [Schedule.cron_manual hkind]
  rfl

theorem alike_hourly (hkind : s.kind = .hourly) (hminute : 0 ≤ s.minute ∧ s.minute ≤ 59) :
    Alike (parseLegacySchedule s.cron) s := by
  obtain ⟨n, hn⟩ := Int.eq_ofNat_of_zero_le hminute.1
  have hcron := Schedule.cron_hourly hkind
  rw [hn] at hcron
  have hpreset : schedulePreset s.cron = some ⟨.hourly, n, "", [], 0, ""⟩ := by
    rw [hcron]
    exact schedulePreset_hourly (by omega)
  refine alike_of_preset hpreset ?_ (shouldRun_congr nofun (by simp [hkind]))
  rw [hcron]
  exact Schedule.cron_hourly rfl

section
variable {clock : Nat × Nat} (hclock : s.clock = clock) (hh : clock.1 ≤ 23) (hm : clock.2 ≤ 59)
include hclock hh hm

theorem alike_daily (hkind : s.kind = .daily) : Alike (parseLegacySchedule s.cron) s := by
  have hcron := Schedule.cron_daily hkind
  rw [hclock] at hcron
  have hpreset : schedulePreset s.cron = some ⟨.daily, 0, clockText clock.1 clock.2, [], 0, ""⟩ := by
    rw [hcron, schedulePreset_timed hh hm isWord_star isWord_star, if_pos ⟨rfl, rfl⟩]
  refine alike_of_preset hpreset ?_ (shouldRun_congr nofun (by simp [hkind]))
  have hback : Schedule.clock ⟨.daily, 0, clockText clock.1 clock.2, [], 0, ""⟩ = clock :=
    (clock_of_clockText rfl hh hm).1
  rw [hcron, Schedule.cron_daily rfl, hback]

theorem alike_weekly (hkind : s.kind = .weekly) (hne : s.normalized.weekdays ≠ [])
    (hrange : ∀ d ∈ s.normalized.weekdays, 0 ≤ d ∧ d ≤ 6) : Alike (parseLegacySchedule s.cron) s := by
  have hcron := Schedule.cron_weekly hkind hne
  rw [hclock] at hcron
  have hsame : normalizeWeekdays s.normalized.weekdays = s.normalized.weekdays :=
    normalizeWeekdays_normalizeWeekdays _
  have hpreset : schedulePreset s.cron =
      some ⟨.weekly, 0, clockText clock.1 clock.2, s.normalized.weekdays, 0, ""⟩ := by
    have hstar := (Schedule.weekdays_ne_star hne hrange).2
    rw [hcron, schedulePreset_timed hh hm isWord_star (Schedule.read_weekdays hne hrange).1,
      if_neg fun h => hstar h.2, if_pos rfl, cronIntList_weekdays hne hrange, hsame, Option.map_some]
  refine alike_of_preset hpreset ?_ (shouldRun_congr nofun (by simp [hkind]))
  have hback : Schedule.clock ⟨.weekly, 0, clockText clock.1 clock.2, s.normalized.weekdays, 0, ""⟩ =
      clock := (clock_of_clockText rfl hh hm).1
  have hdays : (Schedule.normalized ⟨.weekly, 0, clockText clock.1 clock.2, s.normalized.weekdays, 0,
      ""⟩).weekdays = s.normalized.weekdays := hsame
  rw [hcron, Schedule.cron_weekly rfl (by rwa [hdays]), hback, hdays]

theorem alike_monthly (hkind : s.kind = .monthly) (hday : 1 ≤ s.dayOfMonth ∧ s.dayOfMonth ≤ 31) :
    Alike (parseLegacySchedule s.cron) s := by
  have hcron := Schedule.cron_monthly hkind hday.1
  rw [hclock] at hcron
  have hpreset : schedulePreset s.cron =
      some ⟨.monthly, 0, clockText clock.1 clock.2, [], s.dayOfMonth, ""⟩ := by
    rw [hcron]
    by_cases hlast : s.dayOfMonth ≥ Schedule.lastDayOfMonth
    · have heq : s.dayOfMonth = Schedule.lastDayOfMonth := hday.2.antisymm hlast
      rw [if_pos hlast, schedulePreset_timed hh hm (by decide) isWord_star, if_neg (by decide),
        if_neg (by decide), if_pos rfl, if_pos rfl, heq]
    · obtain ⟨n, hn⟩ := Int.eq_ofNat_of_zero_le (show 0 ≤ s.dayOfMonth by omega)
      have hone : cronInt (itoa n) 1 31 = some n := cronInt_itoa (by omega) (by omega) (by omega)
      have hstar : itoa n ≠ ['*'] := ne_of_cronInt hone (by decide)
      rw [if_neg hlast, hn, schedulePreset_timed hh hm (isWord_itoa (by omega)) isWord_star,
        if_neg fun h => hstar h.1, if_neg hstar, if_pos rfl, if_neg (ne_of_cronInt hone (by decide)), hone,
        Option.map_some]
  have hback : Schedule.clock ⟨.monthly, 0, clockText clock.1 clock.2, [], s.dayOfMonth, ""⟩ = clock :=
    (clock_of_clockText rfl hh hm).1
  have hline := Schedule.cron_monthly
    (s := ⟨.monthly, 0, clockText clock.1 clock.2, [], s.dayOfMonth, ""⟩) rfl hday.1
  refine alike_of_preset hpreset ?_ fun k => ?_
  · rw [hcron, hline, hback]
  · unfold Schedule.shouldRun
    rw [hkind]

end

theorem legacy_alike {cron : Cron} (hvalid : s.validate cron = none) (hkind : s.kind ≠ .advanced) :
    Alike (parseLegacySchedule s.cron) s := by
  cases hk : s.kind with
  | advanced => exact absurd hk hkind
  | manual => exact alike_manual hk
  | hourly => exact alike_hourly hk ((Schedule.validate_hourly hk).mp hvalid)
  | daily =>
    obtain ⟨hh, hm⟩ := Schedule.clock_of_valid hvalid (.inl hk)
    exact alike_daily rfl hh hm hk
  | weekly =>
    obtain ⟨hh, hm⟩ := Schedule.clock_of_valid hvalid (.inr (.inl hk))
    obtain ⟨-, hne, hrange⟩ := (Schedule.validate_weekly hk).mp hvalid
    exact alike_weekly rfl hh hm hk hne hrange
  | monthly =>
    obtain ⟨hh, hm⟩ := Schedule.clock_of_valid hvalid (.inr (.inr hk))
    exact alike_monthly rfl hh hm hk ((Schedule.validate_monthly hk).mp hvalid).2

end

@[simp]
theorem rpo_decode_encode (s : Schedule) : (decodeSchedule (encodeSchedule s)).rpo = s.rpo := by
  cases hkind : s.kind <;>
    simp [decodeSchedule, encodeSchedule, marshal, unmarshal, Schedule.rpo, Schedule.normalized, hkind]

@[simp]
theorem label_decode_encode (s : Schedule) : (decodeSchedule (encodeSchedule s)).label = s.label := by
  cases hkind : s.kind <;>
    simp [decodeSchedule, encodeSchedule, marshal, unmarshal, Schedule.label, Schedule.normalized, hkind,
      trimSpace_trimSpace, normalizeWeekdays_normalizeWeekdays]

theorem alike_decode_encode (s : Schedule) : Alike (decodeSchedule (encodeSchedule s)) s :=
  ⟨cron_decode_encode s, shouldRun_decode_encode s⟩

section
variable {m : CaseMap} {cron : Cron} {v : ScheduleValue} {s back : Schedule}

theorem SameTiming.of_alike (hread : v.read m = some s) (hreal : ∀ k, v.shouldRun k ↔ s.shouldRun k)
    (h : Alike back s) : SameTiming m v back :=
  ⟨by rw [ScheduleValue.cron_of_read hread, h.cron], fun k => (h.shouldRun k).trans (hreal k).symm⟩

theorem encode_of_read (hread : v.read m = some s) : v.encode m = some (encodeSchedule s) := by
  rw [ScheduleValue.encode, hread, Option.map_some]

theorem not_survives (hread : v.read m = some s) (hmiss : v.Misspelt s) : ¬ Survives m v s := by
  rintro ⟨⟨column, hcolumn, htiming, -⟩, -⟩
  cases (encode_of_read hread).symm.trans hcolumn
  -- 1 January 1970 is not the last day of its month
  have hreal := (shouldRun_decode_encode s 0).mp ((htiming.shouldRun 0).mpr (hmiss.shouldRun 0))
  rcases hreal with h | h | h
  · exact h hmiss.1
  · exact h.ne hmiss.2.1
  · exact absurd h (by decide)

end

end ProxBack.Store
