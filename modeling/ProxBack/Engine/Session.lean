import Mathlib.Data.Rat.Defs
import ProxBack.Engine.Basic
import Mathlib.Algebra.Order.Ring.Unbundled.Rat

/-! The progress of a run: what a session counts, and when it reports. Percentages are
exact here where the source rounds them to `float64`. -/
namespace ProxBack.Engine

structure Snapshot where
  stats : Stats
  pct : ℚ
  currentStep : String
deriving DecidableEq

structure Session where
  stats : Stats
  currentStep : String
  total : Int
  last : Time
deriving DecidableEq

namespace Session

def new (total : Int) : Session := { stats := .zero, currentStep := "", total, last := 0 }

def setTotal (s : Session) (total : Int) : Session :=
  if total > s.total then { s with total } else s

def snapshot (s : Session) : Snapshot where
  stats := s.stats
  pct := if s.total > 0 then min 100 (s.stats.bytesProcessed / s.total * 100) else 0
  currentStep := s.currentStep

def reportInterval : Time := 200 * 1000000

/-- Account for one chunk; the snapshot, when there is one, is emitted afterwards. -/
def record (s : Session) (size uploaded : Nat) (now : Time) : Session × Option Snapshot :=
  let s := { s with stats := s.stats.record size uploaded }
  if now - s.last ≥ reportInterval then ({ s with last := now }, some s.snapshot) else (s, none)

def setStep (s : Session) (step : String) (now : Time) : Session × Snapshot :=
  let s := { s with currentStep := step, last := now }
  (s, s.snapshot)

end Session

end ProxBack.Engine
