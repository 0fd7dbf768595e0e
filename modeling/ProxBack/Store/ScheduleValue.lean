import ProxBack.Store.Policy
import ProxBack.Store.Upgrade

/-! A schedule as a value of the code, whose kind is a text. Most of what is done with one tidies
the kind first; `ShouldRun` takes it as it stands. -/
namespace ProxBack.Store
open Lib Text Calendar
open Engine (Time)

namespace ScheduleKind

def name : ScheduleKind → String
  | .manual => "manual"
  | .hourly => "hourly"
  | .daily => "daily"
  | .weekly => "weekly"
  | .monthly => "monthly"
  | .advanced => "advanced"

def all : List ScheduleKind := [.manual, .hourly, .daily, .weekly, .monthly, .advanced]

def ofName (text : String) : Option ScheduleKind := all.find? fun k => k.name = text

theorem name_injective : Function.Injective name := by
  intro a b h
  cases a <;> cases b <;> first | rfl | exact absurd h (by decide)

@[simp] theorem ofName_eq_some {text : String} {k : ScheduleKind} : ofName text = some k ↔ text = k.name := by
  constructor
  · intro h
    exact (of_decide_eq_true (List.find?_some (p := fun k : ScheduleKind => decide (k.name = text)) h)).symm
  · rintro rfl
    cases k <;> decide

end ScheduleKind

def weekdayNames : List String := ["Sun", "Mon", "Tue", "Wed", "Thu", "Fri", "Sat"]

/-- `%02d`. -/
def twoDigits (n : Int) : String := String.ofList (if 0 ≤ n then pad2 n.toNat else itoa n)

/-- `Label`. -/
def Schedule.label (s : Schedule) : String :=
  let s := s.normalized
  match s.kind with
  | .hourly => "Every hour at :" ++ twoDigits s.minute
  | .daily => "Daily at " ++ s.time
  | .weekly =>
    let names := s.weekdays.filterMap fun d => if d < 0 ∨ d > 6 then none else weekdayNames[d.toNat]?
    if names = [] then "Weekly at " ++ s.time
    else "Weekly on " ++ ", ".intercalate names ++ " at " ++ s.time
  | .monthly =>
    if s.dayOfMonth ≥ lastDayOfMonth then "Monthly on the last day at " ++ s.time
    else "Monthly on day " ++ toString s.dayOfMonth ++ " at " ++ s.time
  | .advanced => "Custom (" ++ s.cronExpr ++ ")"
  | .manual => "Manual"

structure ScheduleValue where
  kind : String
  minute : Int
  time : String
  weekdays : List Int
  dayOfMonth : Int
  cronExpr : String
deriving DecidableEq, Repr

namespace ScheduleValue

variable (m : CaseMap)

/-- The kind of `Normalized`. -/
def tidyKind (v : ScheduleValue) : String :=
  m.fold (trimmed (if v.kind = "" then ScheduleKind.manual.name else v.kind))

/-- What the functions that tidy the kind go by; nothing where it is not one of the six. -/
def read (v : ScheduleValue) : Option Schedule :=
  (ScheduleKind.ofName (v.tidyKind m)).map fun kind =>
    ⟨kind, v.minute, v.time, v.weekdays, v.dayOfMonth, v.cronExpr⟩

inductive Err where
  | kind (text : String)
  | schedule (err : ScheduleErr)
deriving DecidableEq, Repr

def validate (cron : Cron) (v : ScheduleValue) : Option Err :=
  match v.read m with
  | none => some (.kind (v.tidyKind m))
  | some s => (s.validate cron).map .schedule

def cron (v : ScheduleValue) : List Char :=
  match v.read m with
  | none => []
  | some s => s.cron

def rpo (v : ScheduleValue) : Option Time := (v.read m).bind Schedule.rpo

def label (v : ScheduleValue) : String :=
  match v.read m with
  | none => Schedule.manual.label
  | some s => s.label

/-- `ShouldRun`, by the minute of the local clock. -/
def shouldRun (v : ScheduleValue) (k : Int) : Prop :=
  v.kind ≠ ScheduleKind.monthly.name ∨ v.dayOfMonth < Schedule.lastDayOfMonth ∨
    Calendar.dayOfMonth (dayOf k) = monthLength (monthOf (dayOf k))

instance (v : ScheduleValue) (k : Int) : Decidable (v.shouldRun k) :=
  inferInstanceAs (Decidable (_ ∨ _ ∨ _))

/-- The minute is one that the expression fires at, and the firing is taken for a real one. -/
def RunsAt (cron : Cron) (v : ScheduleValue) (t : Time) : Prop :=
  v.cron m ≠ [] ∧ ∃ fires, cron.parse (v.cron m) = some fires ∧ fires t ∧ v.shouldRun (t / minuteSpan)

def Misspelt (v : ScheduleValue) (s : Schedule) : Prop :=
  s.kind = .monthly ∧ s.dayOfMonth = Schedule.lastDayOfMonth ∧ v.kind ≠ ScheduleKind.monthly.name

instance (v : ScheduleValue) (s : Schedule) : Decidable (v.Misspelt s) :=
  inferInstanceAs (Decidable (_ ∧ _ ∧ _))

variable {m} {v : ScheduleValue} {s : Schedule} {cron : Cron}

theorem of_read (h : v.read m = some s) :
    v.tidyKind m = s.kind.name ∧ s.dayOfMonth = v.dayOfMonth := by
  obtain ⟨kind, hkind, rfl⟩ := Option.map_eq_some_iff.mp h
  exact ⟨ScheduleKind.ofName_eq_some.mp hkind, rfl⟩

theorem validate_of_read (h : v.read m = some s) : v.validate m cron = none ↔ s.validate cron = none := by
  rw [validate, h]
  exact Option.map_eq_none_iff

theorem cron_of_read (h : v.read m = some s) : v.cron m = s.cron := by rw [ScheduleValue.cron, h]

theorem tidy_monthly (h : v.kind = ScheduleKind.monthly.name) : v.tidyKind m = ScheduleKind.monthly.name := by
  have htrim : trimmed ScheduleKind.monthly.name = ScheduleKind.monthly.name := by decide +kernel
  rw [tidyKind, h, if_neg (by decide), htrim]
  exact m.fold_of_small (by decide +kernel)

theorem shouldRun_iff (hread : v.read m = some s)
    (hday : s.kind = .monthly → s.dayOfMonth ≤ Schedule.lastDayOfMonth) (hspelt : ¬ v.Misspelt s)
    (k : Int) : v.shouldRun k ↔ s.shouldRun k := by
  obtain ⟨htidy, hsame⟩ := of_read hread
  unfold shouldRun Schedule.shouldRun
  rw [← hsame]
  by_cases hlast : s.dayOfMonth < Schedule.lastDayOfMonth
  · exact iff_of_true (.inr (.inl hlast)) (.inr (.inl hlast))
  · have hkinds : v.kind ≠ ScheduleKind.monthly.name ↔ s.kind ≠ .monthly := by
      constructor
      · exact fun hname hkind => hspelt ⟨hkind, (hday hkind).antisymm (not_lt.mp hlast), hname⟩
      · intro hkind hname
        rw [tidy_monthly hname] at htidy
        exact hkind (ScheduleKind.name_injective htidy.symm)
    rw [hkinds]

theorem day_of_valid (hvalid : s.validate cron = none) (hkind : s.kind = .monthly) :
    s.dayOfMonth ≤ Schedule.lastDayOfMonth := ((Schedule.validate_monthly hkind).mp hvalid).2.2

theorem Misspelt.shouldRun (h : v.Misspelt s) (k : Int) : v.shouldRun k := .inl h.2.2

end ScheduleValue

end ProxBack.Store
