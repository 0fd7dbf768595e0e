import ProxBack.Lib.FinMap
import ProxBack.Lib.Lists
import ProxBack.Store.Timetable

/-! The schedules of earlier releases, a bare cron expression each, and their conversion when the
database is opened and when one is sent to the API. -/
namespace ProxBack.Store
open Lib Text Calendar
open Engine (Time)

def cronIntList (field : List Char) (min max : Nat) : Option (List Int) :=
  ((field.splitOn ',').mapM fun part => cronInt (trimSpace part) min max).map fun ns =>
    normalizeWeekdays (ns.map Int.ofNat)

/-- `%02d`. -/
def pad2 (n : Nat) : List Char := if n < 10 then '0' :: itoa n else itoa n

def clockText (hour minute : Nat) : String := String.ofList (pad2 hour ++ ':' :: pad2 minute)

def schedulePreset (spec : List Char) : Option Schedule :=
  match fields spec with
  | [minuteField, hourField, domField, monthField, dowField] =>
    if monthField ≠ ['*'] then none
    else
      match cronInt minuteField 0 59 with
      | none => none
      | some minute =>
        if hourField = ['*'] then
          -- every hour means something only when no day narrows it
          if domField = ['*'] ∧ dowField = ['*'] then some ⟨.hourly, minute, "", [], 0, ""⟩ else none
        else
          match cronInt hourField 0 23 with
          | none => none
          | some hour =>
            if domField = ['*'] ∧ dowField = ['*'] then
              some ⟨.daily, 0, clockText hour minute, [], 0, ""⟩
            else if domField = ['*'] then
              (cronIntList dowField 0 6).map fun days =>
                ⟨.weekly, 0, clockText hour minute, days, 0, ""⟩
            else if dowField = ['*'] then
              if domField = Schedule.lastDayCronDays then
                some ⟨.monthly, 0, clockText hour minute, [], Schedule.lastDayOfMonth, ""⟩
              else
                (cronInt domField 1 31).map fun (day : Nat) =>
                  ⟨.monthly, 0, clockText hour minute, [], (day : Int), ""⟩
            else none
  | _ => none

def parseLegacySchedule (raw : List Char) : Schedule :=
  let spec := trimSpace raw
  if spec = [] ∨ spec = ['m', 'a', 'n', 'u', 'a', 'l'] then .manual
  else
    match schedulePreset spec with
    | some preset => preset
    | none => ⟨.advanced, 0, "", [], 0, String.ofList spec⟩

structure ScheduleJson where
  kind : ScheduleKind
  minute : Option Int
  time : String
  weekdays : List Int
  dayOfMonth : Option Int
  cron : String
deriving DecidableEq, Repr

def marshal (s : Schedule) : ScheduleJson :=
  match s.kind with
  | .manual => ⟨.manual, none, "", [], none, ""⟩
  | .hourly => ⟨.hourly, some s.minute, "", [], none, ""⟩
  | .daily => ⟨.daily, none, s.time, [], none, ""⟩
  | .weekly => ⟨.weekly, none, s.time, normalizeWeekdays s.weekdays, none, ""⟩
  | .monthly => ⟨.monthly, none, s.time, [], some s.dayOfMonth, ""⟩
  | .advanced => ⟨.advanced, none, "", [], none, s.cronExpr⟩

def unmarshal (o : ScheduleJson) : Schedule where
  kind := o.kind
  minute := o.minute.getD 0
  time := String.ofList (trimSpace o.time.toList)
  weekdays := o.weekdays
  dayOfMonth := o.dayOfMonth.getD 0
  cronExpr := String.ofList (trimSpace o.cron.toList)

inductive ScheduleColumn where
  | text (raw : List Char)
  | object (o : ScheduleJson)
deriving DecidableEq, Repr

def encodeSchedule (s : Schedule) : ScheduleColumn := .object (marshal s.normalized)

def decodeSchedule : ScheduleColumn → Schedule
  | .object o => (unmarshal o).normalized
  -- an unreadable object too is taken for the legacy form
  | .text raw => parseLegacySchedule (trimSpace raw)

abbrev JobSchedules := FinMap String ScheduleColumn

/-- What the conversion writes for a column; nothing for one with a leading brace. -/
def conversion : ScheduleColumn → Option ScheduleColumn
  | .object _ => none
  | .text raw =>
    if (trimSpace raw).head? = some '\x7b' then none
    else some (encodeSchedule (parseLegacySchedule raw))

def pendingConversions (jobs : JobSchedules) : List (String × ScheduleColumn) :=
  jobs.entries.filterMap fun row => (conversion row.2).map fun column => (row.1, column)

def migrateJobSchedules (jobs : JobSchedules) : JobSchedules :=
  (pendingConversions jobs).foldl (fun jobs c => jobs.insert c.1 c.2) jobs

/-- A request that gives the schedule as a string: what the job's column holds then, or the
error of the validation. -/
def createFromString (cron : Cron) (raw : List Char) : Except ScheduleErr ScheduleColumn :=
  match (parseLegacySchedule raw).validate cron with
  | some err => .error err
  | none => .ok (encodeSchedule (parseLegacySchedule raw))

/-- The scheduler starts the job at the instant: the expression is registered and fires there,
and the firing is a real one. -/
def RunsAt (cron : Cron) (s : Schedule) (t : Time) : Prop :=
  s.cron ≠ [] ∧ ∃ fires, cron.parse s.cron = some fires ∧ fires t ∧ s.shouldRun (t / minuteSpan)

@[simp]
theorem cron_decode_encode (s : Schedule) : (decodeSchedule (encodeSchedule s)).cron = s.cron := by
  cases hkind : s.kind <;>
    simp [decodeSchedule, encodeSchedule, marshal, unmarshal, Schedule.cron, Schedule.normalized, hkind,
      trimSpace_trimSpace, normalizeWeekdays_normalizeWeekdays]

theorem shouldRun_decode_encode (s : Schedule) (k : Int) :
    (decodeSchedule (encodeSchedule s)).shouldRun k ↔ s.shouldRun k := by
  cases hkind : s.kind <;>
    simp [decodeSchedule, encodeSchedule, marshal, unmarshal, Schedule.shouldRun, Schedule.normalized, hkind]

theorem runsAt_decode_encode {cron : Cron} {s : Schedule} {t : Time} :
    RunsAt cron (decodeSchedule (encodeSchedule s)) t ↔ RunsAt cron s t := by
  rw [RunsAt, cron_decode_encode, shouldRun_decode_encode, ← RunsAt]

theorem pad2_digits {n : Nat} (h : n < 60) :
    ∃ a b, pad2 n = [a, b] ∧ digit? a = some (n / 10) ∧ digit? b = some (n % 10) ∧
      isSpace a = false ∧ isSpace b = false := by
  have hall : ∀ n : Fin 60, ∃ a b, pad2 n = [a, b] ∧ digit? a = some (n.val / 10) ∧
      digit? b = some (n.val % 10) ∧ isSpace a = false ∧ isSpace b = false := by
    intro n
    refine ⟨(pad2 n).headD ' ', (pad2 n).getLastD ' ', ?_⟩
    revert n
    decide +kernel
  exact hall ⟨n, h⟩

theorem parseClockTime_clockText {hour minute : Nat} (hh : hour < 60) (hm : minute < 60) :
    parseClockTime (clockText hour minute) = some (hour, minute) := by
  obtain ⟨a, b, hab, ha, hb, -⟩ := pad2_digits hh
  obtain ⟨x, y, hxy, hx, hy, -⟩ := pad2_digits hm
  have htext : (clockText hour minute).toList = [a, b, ':', x, y] := by
    rw [clockText, String.toList_ofList, hab, hxy]
    rfl
  simp only [parseClockTime, htext, ha, hb, hx, hy, Nat.div_add_mod']

theorem trim_clockText {hour minute : Nat} (hh : hour < 60) (hm : minute < 60) :
    String.ofList (trimSpace (clockText hour minute).toList) = clockText hour minute := by
  obtain ⟨a, b, hab, -, -, ha, hb⟩ := pad2_digits hh
  obtain ⟨x, y, hxy, -, -, hx, hy⟩ := pad2_digits hm
  rw [clockText, String.toList_ofList, trimSpace_of_forall]
  rw [hab, hxy]
  intro c hc
  rcases hc with _ | ⟨_, _ | ⟨_, _ | ⟨_, _ | ⟨_, _ | ⟨_, hc⟩⟩⟩⟩⟩
  · exact ha
  · exact hb
  · decide
  · exact hx
  · exact hy
  · cases hc

theorem preset_cases {spec : List Char} {s : Schedule} (h : schedulePreset spec = some s) :
    ∃ minuteField hourField domField dowField minute,
      fields spec = [minuteField, hourField, domField, ['*'], dowField] ∧
      cronInt minuteField 0 59 = some minute ∧
      ((hourField = ['*'] ∧ domField = ['*'] ∧ dowField = ['*'] ∧ s = ⟨.hourly, minute, "", [], 0, ""⟩) ∨
        ∃ hour, cronInt hourField 0 23 = some hour ∧
          ((domField = ['*'] ∧ dowField = ['*'] ∧ s = ⟨.daily, 0, clockText hour minute, [], 0, ""⟩) ∨
          (∃ days, domField = ['*'] ∧ dowField ≠ ['*'] ∧ cronIntList dowField 0 6 = some days ∧
            s = ⟨.weekly, 0, clockText hour minute, days, 0, ""⟩) ∨
          (dowField = ['*'] ∧ domField = Schedule.lastDayCronDays ∧
            s = ⟨.monthly, 0, clockText hour minute, [], Schedule.lastDayOfMonth, ""⟩) ∨
          ∃ day, dowField = ['*'] ∧ cronInt domField 1 31 = some day ∧
            s = ⟨.monthly, 0, clockText hour minute, [], (day : Int), ""⟩)) := by
  unfold schedulePreset at h
  split at h
  swap
  · cases h
  rename_i minuteField hourField domField monthField dowField hfields
  by_cases hmonth : monthField ≠ ['*']
  · rw [if_pos hmonth] at h
    cases h
  rw [if_neg hmonth] at h
  cases not_not.mp hmonth
  cases hminute : cronInt minuteField 0 59 with
  | none =>
    rw [hminute] at h
    cases h
  | some minute =>
    refine ⟨minuteField, hourField, domField, dowField, minute, hfields, hminute, ?_⟩
    rw [hminute] at h
    dsimp only at h
    by_cases hevery : hourField = ['*']
    · rw [if_pos hevery] at h
      split at h
      · rename_i hdays
        cases h
        exact .inl ⟨hevery, hdays.1, hdays.2, rfl⟩
      · cases h
    rw [if_neg hevery] at h
    cases hhour : cronInt hourField 0 23 with
    | none =>
      rw [hhour] at h
      cases h
    | some hour =>
      refine .inr ⟨hour, rfl, ?_⟩
      rw [hhour] at h
      dsimp only at h
      by_cases hdaily : domField = ['*'] ∧ dowField = ['*']
      · rw [if_pos hdaily] at h
        cases h
        exact .inl ⟨hdaily.1, hdaily.2, rfl⟩
      rw [if_neg hdaily] at h
      by_cases hdom : domField = ['*']
      · rw [if_pos hdom] at h
        obtain ⟨days, hdays, rfl⟩ := Option.map_eq_some_iff.mp h
        exact .inr (.inl ⟨days, hdom, fun hdow => hdaily ⟨hdom, hdow⟩, hdays, rfl⟩)
      rw [if_neg hdom] at h
      by_cases hdow : dowField = ['*']
      swap
      · rw [if_neg hdow] at h
        cases h
      rw [if_pos hdow] at h
      by_cases hlast : domField = Schedule.lastDayCronDays
      · rw [if_pos hlast] at h
        cases h
        exact .inr (.inr (.inl ⟨hdow, hlast, rfl⟩))
      · rw [if_neg hlast] at h
        obtain ⟨day, hday, rfl⟩ := Option.map_eq_some_iff.mp h
        exact .inr (.inr (.inr ⟨day, hdow, hday, rfl⟩))

theorem read_of_cronIntList {field : List Char} {days : List Int} (hword : IsWord field)
    (hstar : field ≠ ['*']) (h : cronIntList field 0 6 = some days) :
    ∃ ns : List Nat, ns ≠ [] ∧ (∀ n ∈ ns, n ≤ 6) ∧ CronField.read 0 6 field = some (.oneOf ns) ∧
      days = normalizeWeekdays (ns.map Int.ofNat) := by
  obtain ⟨ns, hns, rfl⟩ := Option.map_eq_some_iff.mp h
  have htrim : ∀ part ∈ field.splitOn ',', trimSpace part = part := by
    intro part hpart
    rw [List.splitOn_eq_splitOnP] at hpart
    exact trimSpace_of_forall fun c hc => hword.2 c (mem_of_mem_splitOnP hpart c hc).1
  have hplain : (field.splitOn ',').mapM (fun part => cronInt part 0 6) = some ns := by
    rw [← hns]
    exact mapM_congr fun part hpart => by rw [htrim part hpart]
  obtain ⟨hlen, hmem⟩ := mapM_mem hplain
  refine ⟨ns, fun hnil => ?_, fun n hn => ?_, ?_, rfl⟩
  · rw [hnil, List.length_nil, eq_comm, List.length_eq_zero_iff] at hlen
    exact List.splitOn_ne_nil ',' field hlen
  · obtain ⟨part, -, hpart⟩ := hmem n hn
    exact (digit?_of_cronInt hpart).2.2.2
  · rw [CronField.read, if_neg hstar, hplain]

end ProxBack.Store
