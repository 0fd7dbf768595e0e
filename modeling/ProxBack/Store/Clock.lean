import ProxBack.Lib.Text

/-! Wall-clock times as the API spells them, and the window that a job's own runs may start
in. -/
namespace ProxBack.Store
open Lib Text

def digit? (c : Char) : Option Nat := if '0' ≤ c ∧ c ≤ '9' then some (c.toNat - '0'.toNat) else none

def parseClockTime (v : String) : Option (Nat × Nat) :=
  match v.toList with
  | [h, h', ':', m, m'] =>
    match digit? h, digit? h', digit? m, digit? m' with
    | some h, some h', some m, some m' => some (h * 10 + h', m * 10 + m')
    | _, _, _, _ => none
  | _ => none

def validClockTime (v : String) : Bool :=
  match parseClockTime v with
  | some (h, m) => h ≤ 23 ∧ m ≤ 59
  | none => false

def clockMinutes (v : String) : Option Nat :=
  if validClockTime v then (parseClockTime v).map fun t => t.1 * 60 + t.2 else none

structure BackupWindow where
  start : String
  stop : String
deriving DecidableEq, Repr

/-- `Contains`, where `now` is the minute of the day. An unusable window blocks nothing. -/
def BackupWindow.contains (w : BackupWindow) (now : Nat) : Bool :=
  match clockMinutes w.start, clockMinutes w.stop with
  | some start, some stop =>
    if start = stop then true
    else if start < stop then start ≤ now ∧ now < stop
    -- crosses midnight
    else start ≤ now ∨ now < stop
  | _, _ => true

def BackupWindow.text (w : BackupWindow) : String := w.start ++ "–" ++ w.stop

end ProxBack.Store
