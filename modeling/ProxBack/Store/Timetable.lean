import ProxBack.Store.Cron
import Mathlib.Data.List.Dedup
import Mathlib.Data.List.Sort

/-! What a schedule means: the expression that the scheduler runs it on, and the firings of it
that are real ones. -/
namespace ProxBack.Store
open Lib Text Calendar
open Engine (Time)

def normalizeWeekdays (days : List Int) : List Int := days.dedup.insertionSort (· ≤ ·)

@[simp]
theorem mem_normalizeWeekdays {days : List Int} {d : Int} : d ∈ normalizeWeekdays days ↔ d ∈ days := by
  rw [normalizeWeekdays, List.mem_insertionSort, List.mem_dedup]

@[simp] theorem normalizeWeekdays_normalizeWeekdays (days : List Int) :
    normalizeWeekdays (normalizeWeekdays days) = normalizeWeekdays days := by
  have hnodup : (normalizeWeekdays days).Nodup :=
    (List.perm_insertionSort _ _).nodup_iff.mpr days.nodup_dedup
  rw [normalizeWeekdays, hnodup.dedup]
  exact List.Pairwise.insertionSort_eq (List.pairwise_insertionSort _ _)

inductive ScheduleErr where
  | minute (n : Int)
  | time (v : String)
  | noWeekday
  | weekday (d : Int)
  | dayOfMonth (d : Int)
  | noCron
  | badCron (expr : String)
deriving DecidableEq, Repr

namespace Schedule

def lastDayOfMonth : Int := 31

def lastDayCronDays : List Char := ['2', '8', '-', '3', '1']

def normalized (s : Schedule) : Schedule :=
  { s with
    time := String.ofList (trimSpace s.time.toList)
    cronExpr := String.ofList (trimSpace s.cronExpr.toList)
    weekdays := normalizeWeekdays s.weekdays }

def validateClockTime (v : String) : Option ScheduleErr :=
  if validClockTime v then none else some (.time v)

def validate (cron : Cron) (s : Schedule) : Option ScheduleErr :=
  let s := s.normalized
  match s.kind with
  | .manual => none
  | .hourly => if s.minute < 0 ∨ s.minute > 59 then some (.minute s.minute) else none
  | .daily => validateClockTime s.time
  | .weekly =>
    (validateClockTime s.time).or <|
      if s.weekdays = [] then some .noWeekday
      else (s.weekdays.find? fun d => d < 0 ∨ d > 6).map .weekday
  | .monthly =>
    (validateClockTime s.time).or <|
      if s.dayOfMonth < 1 ∨ s.dayOfMonth > lastDayOfMonth then some (.dayOfMonth s.dayOfMonth) else none
  | .advanced =>
    if s.cronExpr = "" then some .noCron
    else if (cron.parse s.cronExpr.toList).isSome then none
    else some (.badCron s.cronExpr)

def line (minute hour dom dow : List Char) : List Char :=
  minute ++ ' ' :: (hour ++ ' ' :: (dom ++ ' ' :: (['*'] ++ ' ' :: dow)))

/-- `Cron`; nothing for a schedule that is never registered. -/
def cron (s : Schedule) : List Char :=
  let s := s.normalized
  let (hour, minute) := (parseClockTime s.time).getD (0, 0)
  match s.kind with
  | .hourly => line (itoa s.minute) ['*'] ['*'] ['*']
  | .daily => line (itoa minute) (itoa hour) ['*'] ['*']
  | .weekly =>
    if s.weekdays = [] then []
    else line (itoa minute) (itoa hour) ['*'] ([','].intercalate (s.weekdays.map itoa))
  | .monthly =>
    if s.dayOfMonth ≥ lastDayOfMonth then
      line (itoa minute) (itoa hour) lastDayCronDays ['*']
    else if s.dayOfMonth < 1 then []
    else line (itoa minute) (itoa hour) (itoa s.dayOfMonth) ['*']
  | .advanced => s.cronExpr.toList
  | .manual => []

/-- `ShouldRun`, by the minute of the local clock. -/
def shouldRun (s : Schedule) (k : Int) : Prop :=
  s.kind ≠ .monthly ∨ s.dayOfMonth < lastDayOfMonth ∨
    Calendar.dayOfMonth (dayOf k) = monthLength (monthOf (dayOf k))

instance (s : Schedule) (k : Int) : Decidable (s.shouldRun k) :=
  inferInstanceAs (Decidable (_ ∨ _ ∨ _))

theorem cron_advanced {s : Schedule} (hkind : s.kind = .advanced) : s.cron = s.normalized.cronExpr.toList := by
  have hnorm : s.normalized.kind = .advanced := hkind
  unfold cron
  dsimp only
  rw [hnorm]

def clock (s : Schedule) : Nat × Nat := (parseClockTime s.normalized.time).getD (0, 0)

def spec (s : Schedule) : CronSpec :=
  match s.kind with
  | .hourly => ⟨.oneOf [s.minute.toNat], .any, .any, .any, .any⟩
  | .weekly =>
    ⟨.oneOf [s.clock.2], .oneOf [s.clock.1], .any, .any, .oneOf (s.normalized.weekdays.map Int.toNat)⟩
  | .monthly =>
    ⟨.oneOf [s.clock.2], .oneOf [s.clock.1],
      if s.dayOfMonth ≥ lastDayOfMonth then .range 28 31 else .oneOf [s.dayOfMonth.toNat], .any, .any⟩
  | _ => ⟨.oneOf [s.clock.2], .oneOf [s.clock.1], .any, .any, .any⟩

def Structured (s : Schedule) : Prop := s.kind ≠ .manual ∧ s.kind ≠ .advanced

instance (s : Schedule) : Decidable s.Structured := inferInstanceAs (Decidable (_ ∧ _))

theorem read_line {minute hour dom dow : List Char} {fm fh fd fw : CronField}
    (hm : IsWord minute) (hh : IsWord hour) (hd : IsWord dom) (hw : IsWord dow)
    (rm : CronField.read 0 59 minute = some fm) (rh : CronField.read 0 23 hour = some fh)
    (rd : CronField.read 1 31 dom = some fd) (rw' : CronField.read 0 6 dow = some fw)
    (hany : fd = .any ∨ fw = .any) :
    CronSpec.read (line minute hour dom dow) = some ⟨fm, fh, fd, .any, fw⟩ :=
  read_of_fields (fields_five hm hh hd isWord_star hw) rm rh rd rw' hany

theorem parse_of_valid {v : String} (h : validClockTime v = true) :
    ∃ hour minute, parseClockTime v = some (hour, minute) ∧ hour ≤ 23 ∧ minute ≤ 59 := by
  unfold validClockTime at h
  split at h
  · rename_i hour minute hv
    exact ⟨hour, minute, hv, of_decide_eq_true h⟩
  · cases h

theorem itoa_weekday {d : Int} (h : 0 ≤ d ∧ d ≤ 6) :
    ∃ c, itoa d = [c] ∧ isSpace c = false ∧ c ≠ ',' ∧ c ≠ '*' := by
  have hall : ∀ d : Fin 7, ∃ c, itoa (d : Nat) = [c] ∧ isSpace c = false ∧ c ≠ ',' ∧ c ≠ '*' := by
    intro d
    refine ⟨(itoa (d : Nat)).headD ' ', ?_⟩
    revert d
    decide +kernel
  obtain ⟨n, rfl⟩ := Int.eq_ofNat_of_zero_le h.1
  exact hall ⟨n, by omega⟩

theorem mem_join {days : List Int} {c : Char} (h : c ∈ [','].intercalate (days.map itoa)) :
    c = ',' ∨ ∃ d ∈ days, c ∈ itoa d := by
  induction days with
  | nil => cases h
  | cons d days ih =>
    cases days with
    | nil =>
      rw [List.map_cons, List.map_nil, List.intercalate_singleton] at h
      exact .inr ⟨d, List.mem_cons_self, h⟩
    | cons d' days =>
      rw [List.map_cons, List.map_cons, List.intercalate_cons_cons, List.mem_append,
        List.mem_append, List.mem_singleton] at h
      rcases h with (h | h) | h
      · exact .inr ⟨d, List.mem_cons_self, h⟩
      · exact .inl h
      · rcases ih h with h | ⟨d'', hd'', h⟩
        · exact .inl h
        · exact .inr ⟨d'', List.mem_cons_of_mem _ hd'', h⟩

theorem splitOn_weekdays {days : List Int} (hne : days ≠ []) (hrange : ∀ d ∈ days, 0 ≤ d ∧ d ≤ 6) :
    ([','].intercalate (days.map itoa)).splitOn ',' = days.map itoa := by
  refine List.splitOn_intercalate ',' ?_ (by simpa using hne)
  intro l hl hcomma
  obtain ⟨d, hd, rfl⟩ := List.mem_map.mp hl
  obtain ⟨c, hc, -, hcomma', -⟩ := itoa_weekday (hrange d hd)
  rw [hc, List.mem_singleton] at hcomma
  exact hcomma' hcomma.symm

@[grind =] theorem cronInt_weekdays {days : List Int} (hrange : ∀ d ∈ days, 0 ≤ d ∧ d ≤ 6) :
    (days.map itoa).mapM (fun part => cronInt part 0 6) = some (days.map Int.toNat) := by
  induction days with
  | nil => rfl
  | cons d days ih =>
    obtain ⟨n, rfl⟩ := Int.eq_ofNat_of_zero_le (hrange d List.mem_cons_self).1
    have hn := (hrange _ List.mem_cons_self).2
    have hone : cronInt (itoa n) 0 6 = some n := cronInt_itoa (by omega) (by omega) (by omega)
    rw [List.map_cons, List.mapM_cons, hone, ih fun d hd => hrange d (List.mem_cons_of_mem _ hd)]
    rfl

theorem weekdays_ne_star {days : List Int} (hne : days ≠ []) (hrange : ∀ d ∈ days, 0 ≤ d ∧ d ≤ 6) :
    [','].intercalate (days.map itoa) ≠ [] ∧ [','].intercalate (days.map itoa) ≠ ['*'] := by
  obtain ⟨d₀, rest, rfl⟩ := List.exists_cons_of_ne_nil hne
  obtain ⟨c₀, hc₀, -, -, hstar₀⟩ := itoa_weekday (hrange d₀ List.mem_cons_self)
  have hhead : ∃ tail, [','].intercalate ((d₀ :: rest).map itoa) = c₀ :: tail := by
    rw [List.map_cons, hc₀]
    cases rest with
    | nil => exact ⟨[], rfl⟩
    | cons d' rest => exact ⟨_, List.intercalate_cons_cons⟩
  obtain ⟨tail, htail⟩ := hhead
  rw [htail]
  exact ⟨nofun, fun heq => hstar₀ (List.cons.inj heq).1⟩

theorem read_weekdays {days : List Int} (hne : days ≠ []) (hrange : ∀ d ∈ days, 0 ≤ d ∧ d ≤ 6) :
    IsWord ([','].intercalate (days.map itoa)) ∧
      CronField.read 0 6 ([','].intercalate (days.map itoa)) = some (.oneOf (days.map Int.toNat)) := by
  obtain ⟨hnil, hstar⟩ := weekdays_ne_star hne hrange
  refine ⟨⟨hnil, fun c hc => ?_⟩, ?_⟩
  · rcases mem_join hc with rfl | ⟨d, hd, hmem⟩
    · decide
    · obtain ⟨c', hc', hspace, -⟩ := itoa_weekday (hrange d hd)
      rw [hc', List.mem_singleton] at hmem
      rw [hmem]
      exact hspace
  · rw [CronField.read, if_neg hstar, splitOn_weekdays hne hrange, cronInt_weekdays hrange]

section
variable {s : Schedule} {c : Cron}

theorem validate_hourly (hkind : s.kind = .hourly) :
    s.validate c = none ↔ 0 ≤ s.minute ∧ s.minute ≤ 59 := by
  have hnorm : s.normalized.kind = .hourly := hkind
  have hsame : s.normalized.minute = s.minute := rfl
  rw [validate, hnorm]
  dsimp only
  rw [hsame, ite_eq_right_iff]
  constructor
  · intro h
    by_contra hbad
    cases h (by omega)
  · intro h hbad
    omega

theorem validate_daily (hkind : s.kind = .daily) :
    s.validate c = none ↔ validateClockTime s.normalized.time = none := by
  have hnorm : s.normalized.kind = .daily := hkind
  rw [validate, hnorm]

theorem validate_weekly (hkind : s.kind = .weekly) :
    s.validate c = none ↔ validateClockTime s.normalized.time = none ∧
      s.normalized.weekdays ≠ [] ∧ ∀ d ∈ s.normalized.weekdays, 0 ≤ d ∧ d ≤ 6 := by
  have hnorm : s.normalized.kind = .weekly := hkind
  rw [validate, hnorm]
  dsimp only
  rw [Option.or_eq_none_iff, and_congr_right_iff]
  intro _
  by_cases hne : s.normalized.weekdays = []
  · simp [hne]
  · rw [if_neg hne, Option.map_eq_none_iff, List.find?_eq_none]
    simp [hne]

theorem validate_monthly (hkind : s.kind = .monthly) :
    s.validate c = none ↔ validateClockTime s.normalized.time = none ∧
      1 ≤ s.dayOfMonth ∧ s.dayOfMonth ≤ 31 := by
  have hnorm : s.normalized.kind = .monthly := hkind
  have hsame : s.normalized.dayOfMonth = s.dayOfMonth := rfl
  rw [validate, hnorm]
  dsimp only
  rw [hsame, Option.or_eq_none_iff, and_congr_right_iff, ite_eq_right_iff]
  intro _
  unfold lastDayOfMonth
  constructor
  · intro h
    by_contra hbad
    cases h (by omega)
  · intro h hbad
    omega

theorem time_of_valid (hvalid : s.validate c = none)
    (hkind : s.kind = .daily ∨ s.kind = .weekly ∨ s.kind = .monthly) :
    validClockTime s.normalized.time = true := by
  have htime : validateClockTime s.normalized.time = none := by
    rcases hkind with hkind | hkind | hkind
    · exact (validate_daily hkind).mp hvalid
    · exact ((validate_weekly hkind).mp hvalid).1
    · exact ((validate_monthly hkind).mp hvalid).1
  unfold validateClockTime at htime
  split at htime
  · assumption
  · cases htime

theorem clock_of_valid (hvalid : s.validate c = none)
    (hkind : s.kind = .daily ∨ s.kind = .weekly ∨ s.kind = .monthly) :
    s.clock.1 ≤ 23 ∧ s.clock.2 ≤ 59 := by
  obtain ⟨hour, minute, hparse, hhour, hminute⟩ := parse_of_valid (time_of_valid hvalid hkind)
  rw [clock, hparse]
  exact ⟨hhour, hminute⟩

theorem read_timed {hour minute : Nat} (hh : hour ≤ 23) (hm : minute ≤ 59) {dom dow : List Char}
    {fd fw : CronField} (hd : IsWord dom) (hw : IsWord dow)
    (rd : CronField.read 1 31 dom = some fd) (rw' : CronField.read 0 6 dow = some fw)
    (hany : fd = .any ∨ fw = .any) :
    CronSpec.read (line (itoa minute) (itoa hour) dom dow) =
      some ⟨.oneOf [minute], .oneOf [hour], fd, .any, fw⟩ :=
  read_line (isWord_itoa (by omega)) (isWord_itoa (by omega)) hd hw
    (read_itoa (by omega) (by omega) hm) (read_itoa (by omega) (by omega) hh) rd rw' hany

theorem read_cron (hvalid : s.validate c = none) (hkind : s.Structured) :
    CronSpec.read s.cron = some s.spec := by
  have hnorm : s.normalized.kind = s.kind := rfl
  have hstar : ∀ min max, CronField.read min max ['*'] = some .any := fun _ _ => rfl
  have hclock : (parseClockTime s.normalized.time).getD (0, 0) = (s.clock.1, s.clock.2) :=
    (Prod.eta s.clock).symm
  unfold Schedule.cron spec
  dsimp only
  rw [hnorm, hclock]
  cases hk : s.kind with
  | manual => exact absurd hk hkind.1
  | advanced => exact absurd hk hkind.2
  | hourly =>
    have hm := (validate_hourly hk).mp hvalid
    obtain ⟨n, hn⟩ := Int.eq_ofNat_of_zero_le hm.1
    have hsame : s.normalized.minute = n := hn
    dsimp only
    rw [hsame, hn]
    exact read_line (isWord_itoa (by omega)) isWord_star isWord_star isWord_star
      (read_itoa (by omega) (by omega) (by omega)) (hstar _ _) (hstar _ _) (hstar _ _) (.inl rfl)
  | daily =>
    obtain ⟨hh, hm⟩ := clock_of_valid hvalid (.inl hk)
    dsimp only
    exact read_timed hh hm isWord_star isWord_star (hstar _ _) (hstar _ _) (.inl rfl)
  | weekly =>
    obtain ⟨hh, hm⟩ := clock_of_valid hvalid (.inr (.inl hk))
    obtain ⟨-, hne, hrange⟩ := (validate_weekly hk).mp hvalid
    obtain ⟨hword, hread⟩ := read_weekdays hne hrange
    dsimp only
    rw [if_neg hne]
    exact read_timed hh hm isWord_star hword (hstar _ _) hread (.inl rfl)
  | monthly =>
    obtain ⟨hh, hm⟩ := clock_of_valid hvalid (.inr (.inr hk))
    have hday := ((validate_monthly hk).mp hvalid).2
    have hsame : s.normalized.dayOfMonth = s.dayOfMonth := rfl
    dsimp only
    rw [hsame]
    by_cases hlast : s.dayOfMonth ≥ lastDayOfMonth
    · rw [if_pos hlast, if_pos hlast]
      exact read_timed hh hm (by decide) isWord_star (by decide) (hstar _ _) (.inr rfl)
    · rw [if_neg hlast, if_neg hlast, if_neg (by omega)]
      obtain ⟨n, hn⟩ := Int.eq_ofNat_of_zero_le (show 0 ≤ s.dayOfMonth by omega)
      unfold lastDayOfMonth at hlast
      rw [hn]
      exact read_timed hh hm (isWord_itoa (by omega)) isWord_star
        (read_itoa (by omega) (by omega) (by omega)) (hstar _ _) (.inr rfl)

end

end Schedule

end ProxBack.Store
