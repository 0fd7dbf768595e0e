import ProxBack.Engine.Basic
import Mathlib.Data.List.Sort

/-! Grandfather-father-son retention: the policy, the calendar periods it counts, and
the evaluation that decides which restore points survive and why. -/
namespace ProxBack.Store
open Engine (Time)

inductive Reason where
  | last
  | daily
  | weekly
  | monthly
  | yearly
deriving DecidableEq, Repr

/-- The counts are Go's `int`, 64 bits wide. -/
structure RetentionPolicy where
  keepLast : Int
  keepDaily : Int
  keepWeekly : Int
  keepMonthly : Int
  keepYearly : Int
deriving DecidableEq, Repr

/-- Why a policy is refused: `%s must be between 0 and 9999, got %d` for a count out of
range, `%s must be a whole number, got %q` for one that is not a number. -/
inductive PolicyErr where
  | range (field : String) (got : Int)
  | wholeNumber (field raw : String)
deriving DecidableEq, Repr

namespace RetentionPolicy

def keep (r : RetentionPolicy) : Reason → Int
  | .last => r.keepLast
  | .daily => r.keepDaily
  | .weekly => r.keepWeekly
  | .monthly => r.keepMonthly
  | .yearly => r.keepYearly

/-- The sum of the counts, which wraps around like every `int`. -/
def total (r : RetentionPolicy) : Int :=
  (r.keepLast + r.keepDaily + r.keepWeekly + r.keepMonthly + r.keepYearly).bmod (2 ^ 64)

def maxRetentionCount : Int := 9999

def field : Reason → String
  | .last => "keepLast"
  | .daily => "keepDaily"
  | .weekly => "keepWeekly"
  | .monthly => "keepMonthly"
  | .yearly => "keepYearly"

def order : List Reason := [.last, .daily, .weekly, .monthly, .yearly]

def validate (r : RetentionPolicy) : Except PolicyErr Unit :=
  match order.find? fun ρ => r.keep ρ < 0 ∨ r.keep ρ > maxRetentionCount with
  | none => .ok ()
  | some ρ => .error (.range ("retention." ++ field ρ) (r.keep ρ))

def set (r : RetentionPolicy) (n : Int) : Reason → RetentionPolicy
  | .last => { r with keepLast := n }
  | .daily => { r with keepDaily := n }
  | .weekly => { r with keepWeekly := n }
  | .monthly => { r with keepMonthly := n }
  | .yearly => { r with keepYearly := n }

theorem validate_ok {r : RetentionPolicy} (h : r.validate = .ok ()) (ρ : Reason) :
    0 ≤ r.keep ρ ∧ r.keep ρ ≤ maxRetentionCount := by
  unfold validate at h
  split at h
  · rename_i hnone
    have hmem : ρ ∈ order := by cases ρ <;> decide
    have hρ := List.find?_eq_none.mp hnone ρ hmem
    rw [decide_eq_true_iff] at hρ
    omega
  · cases h

/-- The counts of an accepted policy do not wrap, so a policy in total retains something
exactly when one of its rules does. -/
@[grind =] theorem total_le_zero_iff {r : RetentionPolicy} (h : r.validate = .ok ()) :
    r.total ≤ 0 ↔ ∀ ρ, r.keep ρ ≤ 0 := by
  have hlast := validate_ok h .last
  have hdaily := validate_ok h .daily
  have hweekly := validate_ok h .weekly
  have hmonthly := validate_ok h .monthly
  have hyearly := validate_ok h .yearly
  simp only [keep, maxRetentionCount] at hlast hdaily hweekly hmonthly hyearly
  have htotal : r.total =
      r.keepLast + r.keepDaily + r.keepWeekly + r.keepMonthly + r.keepYearly := by
    apply Int.bmod_eq_of_le <;> omega
  rw [htotal]
  constructor
  · intro hle ρ
    cases ρ <;> simp only [keep] <;> omega
  · intro hall
    have hle := hall .last
    have hle₁ := hall .daily
    have hle₂ := hall .weekly
    have hle₃ := hall .monthly
    have hle₄ := hall .yearly
    simp only [keep] at hle hle₁ hle₂ hle₃ hle₄
    omega

end RetentionPolicy

def nanosecondsPerDay : Int := 86400000000000

def daysSince (t : Time) : Int := t / nanosecondsPerDay

/-- The days from 1 January of the year 1 to 1 January of `year`. -/
def yearStart (year : Int) : Int :=
  365 * (year - 1) + (year - 1) / 4 - (year - 1) / 100 + (year - 1) / 400

/-- Year, month and day in the proleptic Gregorian calendar, counted in years that
begin in March so that a leap day is the last of its year. -/
def date (days : Int) : Int × Nat × Nat :=
  let z := days + 306
  let doe := (z % 146097).toNat
  let yoe := (doe - doe / 1460 + doe / 36524 - doe / 146096) / 365
  let doy := doe - (365 * yoe + yoe / 4 - yoe / 100)
  let mp := (5 * doy + 2) / 153
  let month := if mp < 10 then mp + 3 else mp - 9
  let year := 400 * (z / 146097) + yoe + if month ≤ 2 then 1 else 0
  (year, month, doy - (153 * mp + 2) / 5 + 1)

/-- A week belongs to the year its Thursday is in. The first day of the year 1 is
a Monday. -/
def isoWeek (days : Int) : Int × Int :=
  let thursday := days - days % 7 + 3
  let year := (date thursday).1
  (year, (thursday - yearStart year) / 7 + 1)

def zeroPad (width n : Nat) : String :=
  "".pushn '0' (width - (toString n).length) ++ toString n

/-- A year as `time.Format` writes it: four digits after the sign. -/
def formatYear (year : Int) : String :=
  if year < 0 then "-" ++ zeroPad 4 year.natAbs else zeroPad 4 year.natAbs

/-- `%04d`, where the sign counts as one of the four. -/
def sprintf04d (n : Int) : String :=
  if n < 0 then "-" ++ zeroPad 3 n.natAbs else zeroPad 4 n.natAbs

def bucketKey (t : Time) : Reason → String
  | .daily =>
    let d := date (daysSince t)
    formatYear d.1 ++ "-" ++ zeroPad 2 d.2.1 ++ "-" ++ zeroPad 2 d.2.2
  | .weekly =>
    let yw := isoWeek (daysSince t)
    sprintf04d yw.1 ++ "-W" ++ zeroPad 2 yw.2.toNat
  | .monthly =>
    let d := date (daysSince t)
    formatYear d.1 ++ "-" ++ zeroPad 2 d.2.1
  | .yearly => formatYear (date (daysSince t)).1
  | .last => ""

structure RetentionPoint where
  id : String
  createdAt : Time
deriving Repr

structure RetentionDecision where
  id : String
  createdAt : Time
  reasons : List Reason
deriving DecidableEq, Repr

structure RetentionPlan where
  keeps : List RetentionDecision
  prunes : List RetentionDecision
deriving DecidableEq, Repr

def RetentionDecision.point (d : RetentionDecision) : RetentionPoint := ⟨d.id, d.createdAt⟩

def newer (a b : RetentionPoint) : Bool :=
  if a.createdAt ≠ b.createdAt then decide (b.createdAt < a.createdAt) else decide (b.id < a.id)

/-- A stable sort by `newer`. -/
def sortPoints (points : List RetentionPoint) : List RetentionPoint :=
  points.insertionSort fun a b => ¬ newer b a

abbrev Reasons := String → List Reason

def Reasons.add (reasons : Reasons) (id : String) (reason : Reason) : Reasons :=
  if reason ∈ reasons id then reasons
  else Function.update reasons id (reasons id ++ [reason])

/-- The loop over the `keep` newest points. -/
def keepNewest (keep : Int) : List RetentionPoint → Nat → Reasons → Reasons
  | [], _, reasons => reasons
  | p :: rest, i, reasons =>
    if (i : Int) < keep then keepNewest keep rest (i + 1) (reasons.add p.id .last) else reasons

def keepBuckets (reason : Reason) (keep : Int) :
    List RetentionPoint → List String → Reasons → Reasons
  | [], _, reasons => reasons
  | p :: rest, seen, reasons =>
    let key := bucketKey p.createdAt reason
    if key ∈ seen then keepBuckets reason keep rest seen reasons
    else if (seen.length : Int) ≥ keep then reasons
    else keepBuckets reason keep rest (key :: seen) (reasons.add p.id reason)

def collectReasons (policy : RetentionPolicy) (sorted : List RetentionPoint) : Reasons :=
  let reasons : Reasons := fun _ => []
  let reasons := if policy.keepLast > 0 then keepNewest policy.keepLast sorted 0 reasons else reasons
  [(Reason.daily, policy.keepDaily), (.weekly, policy.keepWeekly), (.monthly, policy.keepMonthly),
    (.yearly, policy.keepYearly)].foldl (fun reasons rule =>
      if rule.2 ≤ 0 then reasons else keepBuckets rule.1 rule.2 sorted [] reasons) reasons

def decidePoints (reasons : Reasons) : List RetentionPoint → RetentionPlan
  | [] => ⟨[], []⟩
  | p :: rest =>
    let plan := decidePoints reasons rest
    if reasons p.id = [] then { plan with prunes := ⟨p.id, p.createdAt, []⟩ :: plan.prunes }
    else
      let ordered := RetentionPolicy.order.filter (· ∈ reasons p.id)
      { plan with keeps := ⟨p.id, p.createdAt, ordered⟩ :: plan.keeps }

def evaluateRetention (points : List RetentionPoint) (policy : RetentionPolicy) : RetentionPlan :=
  let sorted := sortPoints points
  decidePoints (collectReasons policy sorted) sorted

end ProxBack.Store
