import ProxBack.Store.Legacy

/-! Whether a job runs after the upgrade at the instants it ran at before. -/
namespace ProxBack.Store
open Lib Text Calendar
open Engine (Time)

def NamesLastDay (spec : List Char) : Prop :=
  ∃ minute hour dom, fields spec = [minute, hour, dom, ['*'], ['*']] ∧ (cronInt minute 0 59).isSome ∧
    (cronInt hour 0 23).isSome ∧ (dom = Schedule.lastDayCronDays ∨ cronInt dom 1 31 = some 31)

/-- The job's timing outlives the upgrade: the job runs after it exactly when its expression
fires, a job made from the string through the API does too, and nothing is converted twice. -/
structure TimingKept (cron : Cron) (jobs : JobSchedules) (id : String) (raw : List Char)
    (fires : Time → Prop) : Prop where
  migrated : ∃ column, (migrateJobSchedules jobs).lookup id = some column ∧
    ∀ t, RunsAt cron (decodeSchedule column) t ↔ fires t
  created : ∃ column, createFromString cron raw = .ok column ∧
    ∀ t, RunsAt cron (decodeSchedule column) t ↔ fires t
  again : migrateJobSchedules (migrateJobSchedules jobs) = migrateJobSchedules jobs

theorem minute_at (day : Int) {hour minute : Nat} (hh : hour ≤ 23) (hm : minute ≤ 59) :
    (day * 1440 + hour * 60 + minute) % 60 = minute ∧
      (day * 1440 + hour * 60 + minute) % 1440 / 60 = hour ∧
      dayOf (day * 1440 + hour * 60 + minute) = day := by
  unfold dayOf
  omega

theorem matches_at {dom : CronField} {day : Int} {hour minute : Nat} (hh : hour ≤ 23)
    (hm : minute ≤ 59) :
    CronSpec.Matches ⟨.oneOf [minute], .oneOf [hour], dom, .any, .any⟩ (day * 1440 + hour * 60 + minute) ↔
      dom.Allows (dayOfMonth day) := by
  obtain ⟨hminute, hhour, hday⟩ := minute_at day hh hm
  constructor
  · intro h
    have hdom := h.dom
    rw [hday] at hdom
    exact hdom
  · intro h
    refine ⟨⟨minute, List.mem_cons_self, hminute.symm⟩, ⟨hour, List.mem_cons_self, hhour.symm⟩, ?_,
      trivial, trivial⟩
    rw [hday]
    exact h

section
variable {s : Schedule} {cron : Cron}

theorem clock_of_clockText {hour minute : Nat} (ht : s.time = clockText hour minute) (hh : hour ≤ 23)
    (hm : minute ≤ 59) :
    s.clock = (hour, minute) ∧ Schedule.validateClockTime s.normalized.time = none := by
  have htime : s.normalized.time = clockText hour minute := by
    rw [Schedule.normalized, ht]
    exact trim_clockText (by omega) (by omega)
  have hparse := parseClockTime_clockText (show hour < 60 by omega) (show minute < 60 by omega)
  constructor
  · rw [Schedule.clock, htime, hparse]
    rfl
  · rw [Schedule.validateClockTime, validClockTime, htime, hparse]
    exact if_pos (decide_eq_true ⟨hh, hm⟩)

theorem runsAt_iff (hvalid : s.validate cron = none) (hkind : s.Structured) {t : Time} :
    RunsAt cron s t ↔ s.spec.Fires t ∧ s.shouldRun (t / minuteSpan) := by
  have hread := Schedule.read_cron hvalid hkind
  have hparse := cron.plain _ _ hread
  have hne : s.cron ≠ [] := by
    intro hnil
    rw [hnil] at hread
    cases hread
  constructor
  · rintro ⟨-, fires, hfires, hfire, hrun⟩
    cases hfires.symm.trans hparse
    exact ⟨hfire, hrun⟩
  · rintro ⟨hfire, hrun⟩
    exact ⟨hne, _, hparse, hfire, hrun⟩

theorem runsAt_of_matches {c : CronSpec} (hvalid : s.validate cron = none) (hkind : s.Structured)
    (hmatches : ∀ k, s.spec.Matches k ↔ c.Matches k) (hall : ∀ k, s.shouldRun k) {t : Time} :
    RunsAt cron s t ↔ c.Fires t := by
  rw [runsAt_iff hvalid hkind]
  constructor
  · rintro ⟨⟨k, rfl, hk⟩, -⟩
    exact CronSpec.fires_iff.mpr ((hmatches k).mp hk)
  · rintro ⟨k, rfl, hk⟩
    exact ⟨CronSpec.fires_iff.mpr ((hmatches k).mpr hk), hall _⟩

end

/-- The preset is a valid schedule; the job keeps its timing unless the last day is named. -/
def Converts (cron : Cron) (spec : List Char) (s : Schedule) : Prop :=
  s.validate cron = none ∧ ∃ c, CronSpec.read spec = some c ∧
    ((∀ t, RunsAt cron s t ↔ c.Fires t) ↔ ¬ NamesLastDay spec)

section
variable {cron : Cron} {spec minuteField hourField domField dowField : List Char} {minute hour : Nat}
  {s : Schedule}

theorem not_namesLastDay (hfields : fields spec = [minuteField, hourField, domField, ['*'], dowField])
    (h : hourField = ['*'] ∨ dowField ≠ ['*'] ∨
      (domField ≠ Schedule.lastDayCronDays ∧ cronInt domField 1 31 ≠ some 31)) :
    ¬ NamesLastDay spec := by
  rintro ⟨minute, hour, dom, hfields', -, hhour, hdom⟩
  rw [hfields] at hfields'
  cases hfields'
  rcases h with rfl | h | ⟨hwindow, hday⟩
  · cases hhour
  · exact h rfl
  · exact hdom.elim hwindow hday

theorem hourly_converts (hfields : fields spec = [minuteField, ['*'], ['*'], ['*'], ['*']])
    (hminute : cronInt minuteField 0 59 = some minute) (hkind : s.kind = .hourly)
    (hs : s.minute = minute) : Converts cron spec s := by
  obtain ⟨-, -, -, hm⟩ := digit?_of_cronInt hminute
  have hvalid : s.validate cron = none := (Schedule.validate_hourly hkind).mpr (by omega)
  refine ⟨hvalid, _, read_of_fields hfields (read_of_cronInt hminute) rfl rfl rfl (.inl rfl),
    iff_of_true (fun t => ?_) (not_namesLastDay hfields (.inl rfl))⟩
  refine runsAt_of_matches hvalid (by simp [Schedule.Structured, hkind]) (fun k => ?_)
    fun k => .inl (by simp [hkind])
  rw [Schedule.spec, hkind, hs]
  rfl

theorem daily_converts (hfields : fields spec = [minuteField, hourField, ['*'], ['*'], ['*']])
    (hminute : cronInt minuteField 0 59 = some minute) (hhour : cronInt hourField 0 23 = some hour)
    (hkind : s.kind = .daily) (hs : s.time = clockText hour minute) : Converts cron spec s := by
  obtain ⟨-, -, -, hm⟩ := digit?_of_cronInt hminute
  obtain ⟨-, -, -, hh⟩ := digit?_of_cronInt hhour
  obtain ⟨hclock, htime⟩ := clock_of_clockText hs hh hm
  have hvalid : s.validate cron = none := (Schedule.validate_daily hkind).mpr htime
  refine ⟨hvalid, _, read_of_fields hfields (read_of_cronInt hminute) (read_of_cronInt hhour) rfl rfl
    (.inl rfl), iff_of_true (fun t => ?_) (not_namesLastDay hfields (.inr (.inr ⟨by decide, nofun⟩)))⟩
  refine runsAt_of_matches hvalid (by simp [Schedule.Structured, hkind]) (fun k => ?_)
    fun k => .inl (by simp [hkind])
  rw [Schedule.spec, hkind, hclock]

theorem allows_normalized {ns : List Nat} {days : List Int}
    (h : ∀ d, d ∈ days ↔ ∃ n ∈ ns, (n : Int) = d) (d : Int) :
    CronField.Allows (.oneOf (days.map Int.toNat)) d ↔ CronField.Allows (.oneOf ns) d := by
  constructor
  · rintro ⟨m, hm, rfl⟩
    obtain ⟨d, hd, rfl⟩ := List.mem_map.mp hm
    obtain ⟨n, hn, rfl⟩ := (h d).mp hd
    exact ⟨n, hn, rfl⟩
  · rintro ⟨n, hn, rfl⟩
    exact ⟨n, List.mem_map.mpr ⟨n, (h n).mpr ⟨n, hn, rfl⟩, rfl⟩, rfl⟩

theorem weekly_converts {days : List Int}
    (hfields : fields spec = [minuteField, hourField, ['*'], ['*'], dowField])
    (hminute : cronInt minuteField 0 59 = some minute) (hhour : cronInt hourField 0 23 = some hour)
    (hstar : dowField ≠ ['*']) (hdays : cronIntList dowField 0 6 = some days) (hkind : s.kind = .weekly)
    (hs : s.time = clockText hour minute) (hs' : s.weekdays = days) : Converts cron spec s := by
  obtain ⟨-, -, -, hm⟩ := digit?_of_cronInt hminute
  obtain ⟨-, -, -, hh⟩ := digit?_of_cronInt hhour
  have hword : IsWord dowField := isWord_of_mem_fields (s := spec) (by rw [hfields]; simp)
  obtain ⟨ns, hne, hrange, hread, rfl⟩ := read_of_cronIntList hword hstar hdays
  obtain ⟨hclock, htime⟩ := clock_of_clockText hs hh hm
  have hmem : ∀ d, d ∈ s.normalized.weekdays ↔ ∃ n ∈ ns, (n : Int) = d := by
    intro d
    rw [Schedule.normalized, hs', mem_normalizeWeekdays, mem_normalizeWeekdays, List.mem_map]
    rfl
  have hvalid : s.validate cron = none := by
    refine (Schedule.validate_weekly hkind).mpr ⟨htime, ?_, fun d hd => ?_⟩
    · obtain ⟨n, hn⟩ := List.exists_mem_of_ne_nil ns hne
      exact List.ne_nil_of_mem ((hmem n).mpr ⟨n, hn, rfl⟩)
    · obtain ⟨n, hn, rfl⟩ := (hmem d).mp hd
      have hle := hrange n hn
      omega
  refine ⟨hvalid, _, read_of_fields hfields (read_of_cronInt hminute) (read_of_cronInt hhour) rfl hread
    (.inl rfl), iff_of_true (fun t => ?_) (not_namesLastDay hfields (.inr (.inl hstar)))⟩
  refine runsAt_of_matches hvalid (by simp [Schedule.Structured, hkind]) (fun k => ?_)
    fun k => .inl (by simp [hkind])
  rw [Schedule.spec, hkind, hclock]
  constructor
  · rintro ⟨hminute, hhour, hdom, hmonth, hweek⟩
    exact ⟨hminute, hhour, hdom, hmonth, (allows_normalized hmem _).mp hweek⟩
  · rintro ⟨hminute, hhour, hdom, hmonth, hweek⟩
    exact ⟨hminute, hhour, hdom, hmonth, (allows_normalized hmem _).mpr hweek⟩

theorem last_runs_at (hkind : s.kind = .monthly) (hs : s.time = clockText hour minute)
    (hs' : s.dayOfMonth = Schedule.lastDayOfMonth) (hh : hour ≤ 23) (hm : minute ≤ 59) (day : Int) :
    RunsAt cron s ((day * 1440 + hour * 60 + minute) * minuteSpan) ↔
      dayOfMonth day = monthLength (monthOf day) := by
  obtain ⟨hclock, htime⟩ := clock_of_clockText hs hh hm
  have hvalid : s.validate cron = none :=
    (Schedule.validate_monthly hkind).mpr ⟨htime, by rw [hs']; decide⟩
  have hbounds := dayOfMonth_bounds day
  have hlength := monthLength_bounds (monthOf day)
  rw [runsAt_iff hvalid (by simp [Schedule.Structured, hkind]), CronSpec.fires_iff, Schedule.spec, hkind,
    hclock]
  dsimp only
  rw [if_pos hs'.ge, matches_at hh hm, Int.mul_ediv_cancel _ minuteSpan_pos.ne', Schedule.shouldRun,
    (minute_at day hh hm).2.2]
  constructor
  · rintro ⟨-, h | h | h⟩
    · exact absurd hkind h
    · exact absurd h hs'.not_lt
    · exact h
  · intro h
    refine ⟨?_, .inr (.inr h)⟩
    dsimp only [CronField.Allows]
    omega

theorem window_converts
    (hfields : fields spec = [minuteField, hourField, Schedule.lastDayCronDays, ['*'], ['*']])
    (hminute : cronInt minuteField 0 59 = some minute) (hhour : cronInt hourField 0 23 = some hour)
    (hkind : s.kind = .monthly) (hs : s.time = clockText hour minute)
    (hs' : s.dayOfMonth = Schedule.lastDayOfMonth) : Converts cron spec s := by
  obtain ⟨-, -, -, hm⟩ := digit?_of_cronInt hminute
  obtain ⟨-, -, -, hh⟩ := digit?_of_cronInt hhour
  obtain ⟨-, htime⟩ := clock_of_clockText hs hh hm
  have hread : CronField.read 1 31 Schedule.lastDayCronDays = some (.range 28 31) := by decide
  refine ⟨(Schedule.validate_monthly hkind).mpr ⟨htime, by rw [hs']; decide⟩, _,
    read_of_fields hfields (read_of_cronInt hminute) (read_of_cronInt hhour) hread rfl (.inr rfl), ?_⟩
  refine iff_of_false (fun hsame => ?_) (not_not.mpr ⟨_, _, _, hfields, by simp [hminute],
    by simp [hhour], .inl rfl⟩)
  -- 28 January 1970 is one of those days and not the last one
  have hrun := (last_runs_at hkind hs hs' hh hm 27).mp
    ((hsame _).mpr (CronSpec.fires_iff.mpr ((matches_at hh hm).mpr (by decide))))
  exact absurd hrun (by decide)

theorem day_converts {day : Nat}
    (hfields : fields spec = [minuteField, hourField, domField, ['*'], ['*']])
    (hminute : cronInt minuteField 0 59 = some minute) (hhour : cronInt hourField 0 23 = some hour)
    (hday : cronInt domField 1 31 = some day) (hkind : s.kind = .monthly)
    (hs : s.time = clockText hour minute) (hs' : s.dayOfMonth = day) : Converts cron spec s := by
  obtain ⟨-, -, -, hm⟩ := digit?_of_cronInt hminute
  obtain ⟨-, -, -, hh⟩ := digit?_of_cronInt hhour
  obtain ⟨-, hdigits, hmin, hmax⟩ := digit?_of_cronInt hday
  obtain ⟨hclock, htime⟩ := clock_of_clockText hs hh hm
  have hvalid : s.validate cron = none :=
    (Schedule.validate_monthly hkind).mpr ⟨htime, by omega⟩
  refine ⟨hvalid, _, read_of_fields hfields (read_of_cronInt hminute) (read_of_cronInt hhour)
    (read_of_cronInt hday) rfl (.inr rfl), ?_⟩
  by_cases hlast : day = 31
  · subst hlast
    refine iff_of_false (fun hsame => ?_) (not_not.mpr ⟨_, _, _, hfields, by simp [hminute],
      by simp [hhour], .inr hday⟩)
    -- 28 February 1970 is the last day of its month and not the 31st
    have hfire := (hsame _).mp ((last_runs_at hkind hs hs' hh hm 58).mpr (by decide))
    obtain ⟨n, hn, hn'⟩ := (matches_at hh hm).mp (CronSpec.fires_iff.mp hfire)
    rw [List.mem_singleton] at hn
    subst hn
    exact absurd hn' (by decide)
  · have hwindow : domField ≠ Schedule.lastDayCronDays := by
      rintro rfl
      cases hdigits '-' (by decide)
    have hbelow : s.dayOfMonth < Schedule.lastDayOfMonth := by
      unfold Schedule.lastDayOfMonth
      omega
    refine iff_of_true (fun t => ?_) (not_namesLastDay hfields
      (.inr (.inr ⟨hwindow, fun h => hlast (Option.some.inj (hday.symm.trans h))⟩)))
    refine runsAt_of_matches hvalid (by simp [Schedule.Structured, hkind]) (fun k => ?_)
      fun k => .inr (.inl hbelow)
    rw [Schedule.spec, hkind, hclock]
    dsimp only
    rw [if_neg hbelow.not_ge, hs', Int.toNat_natCast]

theorem preset_converts (cron : Cron) (h : schedulePreset spec = some s) : Converts cron spec s := by
  obtain ⟨minuteField, hourField, domField, dowField, minute, hfields, hminute, hcase⟩ := preset_cases h
  rcases hcase with ⟨rfl, rfl, rfl, rfl⟩ | ⟨hour, hhour, hcase⟩
  · exact hourly_converts hfields hminute rfl rfl
  rcases hcase with ⟨rfl, rfl, rfl⟩ | ⟨days, rfl, hstar, hdays, rfl⟩ | ⟨rfl, rfl, rfl⟩ | ⟨day, rfl, hday, rfl⟩
  · exact daily_converts hfields hminute hhour rfl rfl
  · exact weekly_converts hfields hminute hhour hstar hdays rfl rfl rfl
  · exact window_converts hfields hminute hhour rfl rfl rfl
  · exact day_converts hfields hminute hhour hday rfl rfl rfl

end

section
variable {cron : Cron} {raw : List Char} {fires : Time → Prop}

theorem not_manual (h : cron.parse raw = some fires) :
    ¬ (trimSpace raw = [] ∨ trimSpace raw = ['m', 'a', 'n', 'u', 'a', 'l']) := by
  have hparse := cron.trim raw fires h
  rintro (hraw | hraw)
  all_goals
    rw [hraw] at hparse
    exact nomatch hparse.symm.trans (cron.fewer _ (by decide) (by decide))

theorem preset_of_namesLastDay {spec : List Char} (h : NamesLastDay spec) :
    schedulePreset spec ≠ none := by
  obtain ⟨minuteField, hourField, domField, hfields, hminute, hhour, hdom⟩ := h
  obtain ⟨minute, hminute⟩ := Option.isSome_iff_exists.mp hminute
  obtain ⟨hour, hhour⟩ := Option.isSome_iff_exists.mp hhour
  have hhourStar : hourField ≠ ['*'] := by
    rintro rfl
    cases hhour
  have hdomStar : domField ≠ ['*'] := by
    rintro rfl
    exact hdom.elim (by decide) nofun
  rw [schedulePreset, hfields]
  dsimp only
  rw [if_neg (not_not.mpr rfl), hminute]
  dsimp only
  rw [if_neg hhourStar, hhour]
  dsimp only
  rw [if_neg fun h => hdomStar h.1, if_neg hdomStar, if_pos rfl]
  split
  · nofun
  · rename_i hwindow
    rw [hdom.resolve_left hwindow]
    nofun

theorem advanced_runsAt {s : Schedule} (h : cron.parse raw = some fires) (hne : trimSpace raw ≠ [])
    (hkind : s.kind = .advanced) (hs : s.cronExpr = String.ofList (trimSpace raw)) :
    s.validate cron = none ∧ ∀ t, RunsAt cron s t ↔ fires t := by
  have hparse := cron.trim raw fires h
  have hexpr : s.normalized.cronExpr = String.ofList (trimSpace raw) := by
    have hfield : s.normalized.cronExpr = String.ofList (trimSpace s.cronExpr.toList) := rfl
    rw [hfield, hs, String.toList_ofList, trimSpace_trimSpace]
  have hnorm : s.normalized.kind = .advanced := hkind
  have hcron : s.cron = trimSpace raw := by
    rw [Schedule.cron_advanced hkind, hexpr, String.toList_ofList]
  constructor
  · rw [Schedule.validate, hnorm, hexpr]
    dsimp only
    rw [if_neg, if_pos]
    · rw [String.toList_ofList, hparse]
      rfl
    · intro hempty
      rw [← String.toList_inj, String.toList_ofList] at hempty
      exact hne hempty
  · intro t
    rw [RunsAt, hcron]
    constructor
    · rintro ⟨-, fires', hfires', hfire, -⟩
      cases hparse.symm.trans hfires'
      exact hfire
    · intro hfire
      exact ⟨hne, fires, hparse, hfire, .inl (by simp [hkind])⟩

theorem legacy_timing (h : cron.parse raw = some fires) :
    (parseLegacySchedule raw).validate cron = none ∧
      ((∀ t, RunsAt cron (parseLegacySchedule raw) t ↔ fires t) ↔ ¬ NamesLastDay raw) := by
  have hnames : NamesLastDay (trimSpace raw) ↔ NamesLastDay raw := by
    rw [NamesLastDay, fields_trimSpace, ← NamesLastDay]
  have hmanual := not_manual h
  rw [parseLegacySchedule, if_neg hmanual]
  cases hpreset : schedulePreset (trimSpace raw) with
  | some s =>
    obtain ⟨hvalid, c, hread, hiff⟩ := preset_converts cron hpreset
    cases (cron.trim raw fires h).symm.trans (cron.plain _ _ hread)
    exact ⟨hvalid, hiff.trans (not_congr hnames)⟩
  | none =>
    obtain ⟨hvalid, hruns⟩ := advanced_runsAt h (fun hnil => hmanual (.inl hnil))
      (s := ⟨.advanced, 0, "", [], 0, String.ofList (trimSpace raw)⟩) rfl rfl
    exact ⟨hvalid, iff_of_true hruns fun hlast => preset_of_namesLastDay (hnames.mpr hlast) hpreset⟩

end

section
variable {jobs : JobSchedules} {id : String} {column : ScheduleColumn}

@[simp] theorem mem_pendingConversions {c : String × ScheduleColumn} :
    c ∈ pendingConversions jobs ↔ ∃ column, jobs.lookup c.1 = some column ∧ conversion column = some c.2 := by
  rw [pendingConversions, List.mem_filterMap]
  constructor
  · rintro ⟨row, hrow, hc⟩
    obtain ⟨column, hcolumn, rfl⟩ := Option.map_eq_some_iff.mp hc
    exact ⟨row.2, AList.mem_lookup_iff.mpr hrow, hcolumn⟩
  · rintro ⟨column, hlookup, hconv⟩
    exact ⟨⟨c.1, column⟩, AList.mem_lookup_iff.mp hlookup, by rw [hconv]; rfl⟩

@[grind =] theorem lookup_migrateJobSchedules (jobs : JobSchedules) (id : String) :
    (migrateJobSchedules jobs).lookup id =
      (jobs.lookup id).map fun column => (conversion column).getD column := by
  refine FinMap.lookup_foldl_insert (fun c hc hid => ?_) ?_
  · obtain ⟨column, hlookup, hconv⟩ := mem_pendingConversions.mp hc
    rw [← hid, hlookup, Option.map_some, hconv]
    rfl
  · cases hlookup : jobs.lookup id with
    | none => exact .inr rfl
    | some column =>
      cases hconv : conversion column with
      | none =>
        right
        rw [Option.map_some, hconv]
        rfl
      | some column' => exact .inl ⟨(id, column'), mem_pendingConversions.mpr ⟨column, hlookup, hconv⟩, rfl⟩

@[simp] theorem conversion_conversion (column : ScheduleColumn) :
    conversion ((conversion column).getD column) = none := by
  cases column with
  | object o => rfl
  | text raw =>
    by_cases hbrace : (trimSpace raw).head? = some '\x7b'
    · have hnone : conversion (.text raw) = none := if_pos hbrace
      rw [hnone]
      exact hnone
    · have hsome : conversion (.text raw) = some (encodeSchedule (parseLegacySchedule raw)) := if_neg hbrace
      rw [hsome]
      rfl

theorem migrateJobSchedules_again (jobs : JobSchedules) :
    migrateJobSchedules (migrateJobSchedules jobs) = migrateJobSchedules jobs := by
  have hpending : pendingConversions (migrateJobSchedules jobs) = [] := by
    rw [List.eq_nil_iff_forall_not_mem]
    intro c hc
    obtain ⟨column, hlookup, hconv⟩ := mem_pendingConversions.mp hc
    rw [lookup_migrateJobSchedules] at hlookup
    obtain ⟨column', -, rfl⟩ := Option.map_eq_some_iff.mp hlookup
    rw [conversion_conversion] at hconv
    cases hconv
  rw [migrateJobSchedules, hpending]
  rfl

theorem runsAt_conversion {cron : Cron} {raw : List Char} {t : Time} :
    RunsAt cron (decodeSchedule ((conversion (.text raw)).getD (.text raw))) t ↔
      RunsAt cron (parseLegacySchedule raw) t := by
  by_cases hbrace : (trimSpace raw).head? = some '\x7b'
  · have hnone : conversion (.text raw) = none := if_pos hbrace
    have hsame : parseLegacySchedule (trimSpace raw) = parseLegacySchedule raw := by
      rw [parseLegacySchedule, trimSpace_trimSpace, ← parseLegacySchedule]
    rw [hnone, Option.getD_none, decodeSchedule, hsame]
  · have hsome : conversion (.text raw) = some (encodeSchedule (parseLegacySchedule raw)) := if_neg hbrace
    rw [hsome, Option.getD_some, runsAt_decode_encode]

theorem lookup_legacy {raw : List Char} (hjob : jobs.lookup id = some (.text raw)) :
    (migrateJobSchedules jobs).lookup id = some ((conversion (.text raw)).getD (.text raw)) := by
  rw [lookup_migrateJobSchedules, hjob, Option.map_some]

theorem not_namesLastDay_of_kept {cron : Cron} {raw : List Char} {fires : Time → Prop}
    (hjob : jobs.lookup id = some (.text raw)) (hparse : cron.parse raw = some fires)
    (h : TimingKept cron jobs id raw fires) : ¬ NamesLastDay raw := by
  obtain ⟨⟨column, hcolumn, hruns⟩, -, -⟩ := h
  cases (lookup_legacy hjob).symm.trans hcolumn
  exact (legacy_timing hparse).2.mp fun t => runsAt_conversion.symm.trans (hruns t)

/-- The timing of a job whose expression does not name the last day outlives the upgrade, and
that of no other does. -/
theorem timingKept_iff {cron : Cron} {raw : List Char} {fires : Time → Prop}
    (hjob : jobs.lookup id = some (.text raw)) (hparse : cron.parse raw = some fires) :
    TimingKept cron jobs id raw fires ↔ ¬ NamesLastDay raw := by
  refine ⟨not_namesLastDay_of_kept hjob hparse, fun hlast => ?_⟩
  obtain ⟨hvalid, htiming⟩ := legacy_timing hparse
  have hruns := htiming.mpr hlast
  refine ⟨⟨_, lookup_legacy hjob, fun t => runsAt_conversion.trans (hruns t)⟩,
    ⟨encodeSchedule (parseLegacySchedule raw), ?_, fun t => runsAt_decode_encode.trans (hruns t)⟩,
    migrateJobSchedules_again jobs⟩
  rw [createFromString, hvalid]

end

/-- `0 2 * * *`, kept as two o'clock each day. -/
theorem nightly_timing_kept :
    ∃ fires, plainCron.parse "0 2 * * *".toList = some fires ∧
      TimingKept plainCron (AList.insert "nightly" (.text "0 2 * * *".toList) ∅) "nightly"
        "0 2 * * *".toList fires := by
  have hfields : fields "0 2 * * *".toList = [['0'], ['2'], ['*'], ['*'], ['*']] := by decide
  refine ⟨_, rfl, (timingKept_iff (AList.lookup_insert _) rfl).mpr ?_⟩
  exact not_namesLastDay hfields (.inr (.inr ⟨by decide, by decide⟩))

/-- `0 1 31 * *`, which runs on 28 February too after the upgrade. -/
theorem thirty_first_timing_lost :
    ∃ fires, plainCron.parse "0 1 31 * *".toList = some fires ∧
      ¬ TimingKept plainCron (AList.insert "monthly" (.text "0 1 31 * *".toList) ∅) "monthly"
        "0 1 31 * *".toList fires := by
  have hfields : fields "0 1 31 * *".toList = [['0'], ['1'], ['3', '1'], ['*'], ['*']] := by decide
  refine ⟨_, rfl, fun h => ?_⟩
  refine not_namesLastDay_of_kept (AList.lookup_insert _) rfl h ⟨_, _, _, hfields, ?_⟩
  decide

end ProxBack.Store
