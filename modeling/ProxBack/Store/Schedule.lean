import ProxBack.Engine.Basic
import ProxBack.Store.Clock

/-! The schedule of a job, and the recovery point objective that it implies. -/
namespace ProxBack.Store
open Engine (Time)

inductive ScheduleKind where
  | manual
  | hourly
  | daily
  | weekly
  | monthly
  | advanced
deriving DecidableEq, Repr

structure Schedule where
  kind : ScheduleKind
  minute : Int
  time : String
  weekdays : List Int
  dayOfMonth : Int
  cronExpr : String
deriving DecidableEq, Repr

namespace Schedule

def manual : Schedule := ⟨.manual, 0, "", [], 0, ""⟩

def hour : Time := 3600 * 10 ^ 9

/-- `RPO`; a manual job and an expression of one's own promise nothing. -/
def rpo (s : Schedule) : Option Time :=
  match s.kind with
  | .hourly => some hour
  | .daily => some (24 * hour)
  | .weekly => some (168 * hour)
  | .monthly => some (720 * hour)
  | .manual | .advanced => none

end Schedule

def rpoGrace (rpo : Time) : Time := if rpo / 4 < Schedule.hour then Schedule.hour else rpo / 4

end ProxBack.Store
