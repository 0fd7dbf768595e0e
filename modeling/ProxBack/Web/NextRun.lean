import ProxBack.Lib.JsDate
import ProxBack.Sched.NextRun
import ProxBack.Store.Legacy

/-! The preview of the next run that the console shows beside a schedule, and whether it is the
scheduler's answer. -/
namespace ProxBack.Web
open Lib Calendar JsDate Store Sched
open Engine (Time)

/-- `Number` of plain digits, and nothing for what is not finite. -/
def number (text : List Char) : Option Int := if allDigits text then some (atoi text) else none

/-- `HH:MM` split into numbers, tolerant of malformed input. -/
def timeParts (time : String) : Int × Int :=
  let parts := time.toList.splitOn ':'
  let hour := (parts[0]?.bind number).map fun n => max 0 (min 23 n)
  let minute := (parts[1]?.bind number).map fun n => max 0 (min 59 n)
  (hour.getD 0, minute.getD 0)

/-- The server's clock as a date: by its parts where the zone's name is given and known, else
the browser's, both in the same zone. -/
def serverNow (named : Bool) (clock : Int) : Int :=
  if named then
    ofParts (getFullYear clock) (getMonth clock) (getDate clock) (getHours clock % 24) (getMinutes clock)
      (getSeconds clock) 0
  else clock

def lastDayOfMonth (year month : Int) : Int := getDate (ofParts year (month + 1) 0 0 0 0 0)

def weeklyCandidate (now hour minute : Int) (offset : Nat) : Int :=
  let candidate := setSeconds now 0 0
  setHours (setDate candidate (getDate candidate + offset)) hour minute

def monthlyCandidate (now hour minute dayOfMonth : Int) (offset : Nat) : Int :=
  let probe := ofParts (getFullYear now) (getMonth now + offset) 1 0 0 0 0
  let last := lastDayOfMonth (getFullYear probe) (getMonth probe)
  ofParts (getFullYear probe) (getMonth probe) (min dayOfMonth last) hour minute 0 0

def nextRunOf (schedule : ScheduleJson) (named : Bool) (clock : Int) : Option Int :=
  let now := serverNow named clock
  let hour := (timeParts schedule.time).1
  let minute := (timeParts schedule.time).2
  match schedule.kind with
  | .manual | .advanced => none
  | .hourly =>
    let next := setMinutes (setSeconds now 0 0) (schedule.minute.getD 0)
    if next ≤ now then some (setHours next (getHours next + 1) (getMinutes next)) else some next
  | .daily =>
    let next := setHours (setSeconds now 0 0) hour minute
    if next ≤ now then some (setDate next (getDate next + 1)) else some next
  | .weekly =>
    if schedule.weekdays = [] then none
    else
      ((List.range 8).find? fun offset =>
        getDay (weeklyCandidate now hour minute offset) ∈ schedule.weekdays ∧
          weeklyCandidate now hour minute offset > now).map (weeklyCandidate now hour minute)
  | .monthly =>
    ((List.range 14).find? fun offset =>
      monthlyCandidate now hour minute (schedule.dayOfMonth.getD 0) offset > now).map
        (monthlyCandidate now hour minute (schedule.dayOfMonth.getD 0))

/-- An instant a few days after the beginning of the year 100 at least. `Date` takes a smaller year
for one of the last century. -/
structure Reading extends Moment where
  since : -59011200000 * 10 ^ 9 ≤ now

def clockOf (m : Reading) : Int := m.now / 10 ^ 6 + m.offset * 1000

def instantOf (m : Reading) (date : Int) : Time := (date - m.offset * 1000) * 10 ^ 6

/-- The console shows, for a schedule that the server sent it, what the server tells. -/
def PreviewAgrees (cron : Cron) (s : Schedule) (named : Bool) (m : Reading) : Prop :=
  (nextRunOf (marshal s.normalized) named (clockOf m)).map (instantOf m) = nextRun cron s true m.toMoment

section
variable {m : Reading} {named : Bool}

@[grind =] theorem clockOf_minute (m : Reading) : clockOf m / 60000 = m.minute := by
  unfold clockOf Moment.minute Moment.wall minuteSpan
  omega

theorem year_clockOf (m : Reading) : 100 ≤ getFullYear (clockOf m) := by
  have hday : -683001 ≤ day (clockOf m) := by
    have hzone := m.zone
    have hsince := m.since
    unfold day clockOf
    omega
  have hmonth := monthOf_mono hday
  have hfirst : monthOf (-683001) = 1200 := by decide
  unfold getFullYear
  omega

theorem serverNow_spec (named : Bool) (m : Reading) :
    serverNow named (clockOf m) / 60000 = m.minute ∧ 100 ≤ getFullYear (serverNow named (clockOf m)) := by
  cases named with
  | false => exact ⟨clockOf_minute m, year_clockOf m⟩
  | true =>
    have hhours : getHours (clockOf m) % 24 = getHours (clockOf m) := by
      unfold getHours
      omega
    have hparts := ofParts_parts (year_clockOf m) 0
    have hnow : serverNow true (clockOf m) = clockOf m / 1000 * 1000 := by
      rw [serverNow, if_pos rfl, hhours, hparts, Int.add_zero]
    have hday : day (clockOf m / 1000 * 1000) = day (clockOf m) := by
      unfold day
      omega
    rw [hnow]
    refine ⟨?_, ?_⟩
    · rw [← clockOf_minute]
      omega
    · rw [getFullYear, hday]
      exact year_clockOf m

@[grind =]
theorem instantOf_minute (m : Reading) (k : Int) : instantOf m (k * 60000) = m.utc (k * minuteSpan) := by
  have hscale : (k * 60000 - m.offset * 1000) * 10 ^ 6 = k * (60 * 10 ^ 9) - m.offset * 10 ^ 9 := by
    omega
  exact hscale

end

theorem atoi_two {a b : Char} {m n : Nat} (ha : digit? a = some m) (hb : digit? b = some n) :
    number [a, b] = some ((m * 10 + n : Nat) : Int) := by
  have hdigits : allDigits [a, b] = true := by
    refine decide_eq_true ⟨nofun, fun c hc => ?_⟩
    rcases hc with _ | ⟨_, _ | ⟨_, hc⟩⟩
    · rw [ha]
      rfl
    · rw [hb]
      rfl
    · cases hc
  rw [number, if_pos hdigits]
  simp [atoi, ha, hb]

theorem timeParts_of_parse {v : String} {hour minute : Nat} (h : parseClockTime v = some (hour, minute))
    (hh : hour ≤ 23) (hm : minute ≤ 59) : timeParts v = ((hour : Int), (minute : Int)) := by
  unfold parseClockTime at h
  split at h
  swap
  · cases h
  rename_i a b x y htext
  split at h
  swap
  · cases h
  rename_i da db dx dy ha hb hx hy
  cases h
  have hcolon : ∀ {c : Char} {n : Nat}, digit? c = some n → c ≠ ':' := by
    rintro c n hc rfl
    cases hc
  have hsplit : [a, b, ':', x, y].splitOn ':' = [[a, b], [x, y]] := by
    have hfirst : ':' ∉ [a, b] := by simp [(hcolon ha).symm, (hcolon hb).symm]
    have hsecond : ':' ∉ [x, y] := by simp [(hcolon hx).symm, (hcolon hy).symm]
    have happend := List.splitOn_append_cons_self_of_not_mem hfirst [x, y]
    rw [List.splitOn_eq_singleton hsecond] at happend
    exact happend
  rw [timeParts, htext, hsplit]
  dsimp only [List.getElem?_cons_zero, List.getElem?_cons_succ, Option.bind_some]
  rw [atoi_two ha hb, atoi_two hx hy]
  dsimp only [Option.map_some, Option.getD_some]
  rw [Prod.mk.injEq]
  omega

theorem timeParts_of_valid {s : Schedule} {c : Cron} (hvalid : s.validate c = none)
    (hkind : s.kind = .daily ∨ s.kind = .weekly ∨ s.kind = .monthly) :
    timeParts s.normalized.time = ((s.clock.1 : Int), (s.clock.2 : Int)) := by
  obtain ⟨hour, minute, hparse, hh, hm⟩ := Schedule.parse_of_valid (Schedule.time_of_valid hvalid hkind)
  rw [timeParts_of_parse hparse hh hm, Schedule.clock, hparse]
  rfl

end ProxBack.Web
