import Mathlib.Order.Basic
import Mathlib.Tactic.IntervalCases

/-! The Gregorian calendar over all days. Months are numbered through, twelve to a year
counted from the year zero, and days from the first of January 1970. -/
namespace ProxBack.Lib.Calendar

def isLeap (year : Int) : Prop := year % 4 = 0 ∧ (year % 100 ≠ 0 ∨ year % 400 = 0)

instance (year : Int) : Decidable (isLeap year) := inferInstanceAs (Decidable (_ ∧ _))

def yearStart (year : Int) : Int :=
  365 * (year - 1970) + (year - 1969) / 4 - (year - 1901) / 100 + (year - 1601) / 400

/-- The days of a common year before one of its months, which are counted from zero. -/
def daysBefore (month : Int) : Int :=
  match month.toNat with
  | 0 => 0
  | 1 => 31
  | 2 => 59
  | 3 => 90
  | 4 => 120
  | 5 => 151
  | 6 => 181
  | 7 => 212
  | 8 => 243
  | 9 => 273
  | 10 => 304
  | _ => 334

def monthStart (m : Int) : Int :=
  yearStart (m / 12) + daysBefore (m % 12) + if isLeap (m / 12) ∧ 2 ≤ m % 12 then 1 else 0

def monthLength (m : Int) : Int :=
  if m % 12 = 1 then if isLeap (m / 12) then 29 else 28
  else if m % 12 = 3 ∨ m % 12 = 5 ∨ m % 12 = 8 ∨ m % 12 = 10 then 30
  else 31

/-- Four hundred years have 4800 months and 146097 days, which tells the month of a day but
for a neighbour. -/
def monthOf (day : Int) : Int :=
  let m := 4800 * (day + 719528) / 146097
  if day < monthStart m then m - 1 else if day < monthStart (m + 1) then m else m + 1

def dayOfMonth (day : Int) : Int := day - monthStart (monthOf day) + 1

def weekday (day : Int) : Int := (day + 4) % 7

@[grind =] theorem yearStart_succ (year : Int) :
    yearStart (year + 1) = yearStart year + if isLeap year then 366 else 365 := by
  unfold yearStart
  split
  · rename_i hleap
    unfold isLeap at hleap
    omega
  · rename_i hcommon
    unfold isLeap at hcommon
    omega

theorem exists_month (m : Int) : ∃ year month : Int, 0 ≤ month ∧ month < 12 ∧ m = 12 * year + month :=
  ⟨m / 12, m % 12, by omega, by omega, by omega⟩

theorem monthStart_eq {year month : Int} (h : 0 ≤ month) (h' : month < 12) :
    monthStart (12 * year + month) =
      yearStart year + daysBefore month + if isLeap year ∧ 2 ≤ month then 1 else 0 := by
  have hdiv : (12 * year + month) / 12 = year := by omega
  have hmod : (12 * year + month) % 12 = month := by omega
  rw [monthStart, hdiv, hmod]

theorem monthLength_eq {year month : Int} (h : 0 ≤ month) (h' : month < 12) :
    monthLength (12 * year + month) =
      if month = 1 then if isLeap year then 29 else 28
      else if month = 3 ∨ month = 5 ∨ month = 8 ∨ month = 10 then 30
      else 31 := by
  have hdiv : (12 * year + month) / 12 = year := by omega
  have hmod : (12 * year + month) % 12 = month := by omega
  rw [monthLength, hdiv, hmod]

@[grind =] theorem monthStart_succ (m : Int) : monthStart (m + 1) = monthStart m + monthLength m := by
  obtain ⟨year, month, h, h', rfl⟩ := exists_month m
  rw [monthStart_eq h h', monthLength_eq h h']
  by_cases hlast : month = 11
  · subst hlast
    have hnext : 12 * year + 11 + 1 = 12 * (year + 1) + 0 := by omega
    rw [hnext, monthStart_eq (by omega) (by omega), yearStart_succ]
    by_cases hleap : isLeap year <;> simp [daysBefore, hleap] <;> omega
  · rw [add_assoc, monthStart_eq (by omega) (by omega)]
    have hlt : month < 11 := by omega
    clear h' hlast
    interval_cases month <;> simp [daysBefore] <;> split <;> omega

theorem monthLength_bounds (m : Int) : 28 ≤ monthLength m ∧ monthLength m ≤ 31 := by
  unfold monthLength
  split
  · split <;> omega
  · split <;> omega

theorem monthLength_of_short {m : Int} (h : monthLength m < 30) : m % 12 = 1 := by
  unfold monthLength at h
  split at h
  · assumption
  · split at h <;> omega

theorem monthStart_mono {m m' : Int} (h : m ≤ m') : monthStart m ≤ monthStart m' := by
  induction m', h using Int.leInduction with
  | base => exact le_rfl
  | succ m' _ ih =>
    have hbounds := monthLength_bounds m'
    rw [monthStart_succ]
    omega

/-- The start of a month is where the length of four hundred years would put it, give or
take a few days. -/
theorem monthStart_near (m : Int) :
    146097 * m - 4800 * 719538 ≤ 4800 * monthStart m ∧
      4800 * monthStart m ≤ 146097 * m - 4800 * 719518 := by
  obtain ⟨year, month, h, h', rfl⟩ := exists_month m
  rw [monthStart_eq h h']
  have hyear : 146097 * (year - 1970) - 400 * 4 ≤ 400 * yearStart year ∧
      400 * yearStart year ≤ 146097 * (year - 1970) + 400 * 4 := by
    unfold yearStart
    omega
  have hbefore : 146097 * month - 4800 * 3 ≤ 4800 * daysBefore month ∧
      4800 * daysBefore month ≤ 146097 * month + 4800 * 3 := by
    interval_cases month <;> simp [daysBefore]
  split <;> omega

theorem monthOf_spec (day : Int) :
    monthStart (monthOf day) ≤ day ∧ day < monthStart (monthOf day + 1) := by
  unfold monthOf
  dsimp only
  set m := 4800 * (day + 719528) / 146097 with hm
  split
  · have hnear := monthStart_near (m - 1)
    have hsame : m - 1 + 1 = m := by omega
    rw [hsame]
    omega
  · split
    · omega
    · have hnear := monthStart_near (m + 1 + 1)
      omega

theorem monthOf_eq {day m : Int} (h : monthStart m ≤ day) (h' : day < monthStart (m + 1)) :
    monthOf day = m := by
  obtain ⟨hlo, hhi⟩ := monthOf_spec day
  rcases lt_trichotomy (monthOf day) m with hlt | heq | hgt
  · have hmono := monthStart_mono (show monthOf day + 1 ≤ m by omega)
    omega
  · exact heq
  · have hmono := monthStart_mono (show m + 1 ≤ monthOf day by omega)
    omega

@[grind =] theorem monthOf_add {m d : Int} (h : 1 ≤ d) (h' : d ≤ monthLength m) :
    monthOf (monthStart m + d - 1) = m := by
  apply monthOf_eq
  · omega
  · rw [monthStart_succ]
    omega

@[grind =] theorem dayOfMonth_add {m d : Int} (h : 1 ≤ d) (h' : d ≤ monthLength m) :
    dayOfMonth (monthStart m + d - 1) = d := by
  rw [dayOfMonth, monthOf_add h h']
  omega

theorem dayOfMonth_bounds (day : Int) :
    1 ≤ dayOfMonth day ∧ dayOfMonth day ≤ monthLength (monthOf day) := by
  obtain ⟨hlo, hhi⟩ := monthOf_spec day
  rw [monthStart_succ] at hhi
  unfold dayOfMonth
  omega

@[grind =]
theorem monthStart_dayOfMonth (day : Int) : monthStart (monthOf day) + dayOfMonth day - 1 = day := by
  unfold dayOfMonth
  omega

theorem monthOf_mono {day day' : Int} (h : day ≤ day') : monthOf day ≤ monthOf day' := by
  obtain ⟨hlo, -⟩ := monthOf_spec day
  obtain ⟨-, hhi⟩ := monthOf_spec day'
  by_contra hlt
  have hmono := monthStart_mono (show monthOf day' + 1 ≤ monthOf day by omega)
  omega

theorem exists_weekday (day : Int) {w : Int} (h : 0 ≤ w ∧ w ≤ 6) :
    ∃ n : Nat, 1 ≤ n ∧ n ≤ 7 ∧ weekday (day + n) = w := by
  obtain ⟨n, hn⟩ := Int.eq_ofNat_of_zero_le (show 0 ≤ (w - weekday day - 1) % 7 + 1 by omega)
  refine ⟨n, by omega, by omega, ?_⟩
  unfold weekday at *
  omega

end ProxBack.Lib.Calendar
