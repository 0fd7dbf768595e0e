import Mathlib.Order.Monotone.Basic
import Mathlib.Tactic.IntervalCases
import ProxBack.Lib.Calendar

/-! Dates by eras: 400 years, counted from the first of March of the year zero, always have
146097 days, and a leap day is the last of its year. -/
namespace ProxBack.Lib.Calendar

def yearOfEra (doe : Nat) : Nat := (doe - doe / 1460 + doe / 36524 - doe / 146096) / 365

def eraYearStart (yoe : Nat) : Nat := 365 * yoe + yoe / 4 - yoe / 100 + yoe / 400

theorem yearOfEra_mono : Monotone yearOfEra := by
  refine monotone_nat_of_le_succ fun n => Nat.div_le_div_right ?_
  omega

theorem yearOfEra_start : ∀ yoe < 400,
    yearOfEra (eraYearStart yoe) = yoe ∧ yearOfEra (eraYearStart (yoe + 1) - 1) = yoe := by
  decide +kernel

theorem yearOfEra_spec {doe : Nat} (h : doe < 146097) :
    yearOfEra doe < 400 ∧ eraYearStart (yearOfEra doe) ≤ doe ∧
      doe < eraYearStart (yearOfEra doe + 1) := by
  have hlt : yearOfEra doe < 400 := by
    have hlast : yearOfEra 146096 = 399 := by decide
    have hle := yearOfEra_mono (show doe ≤ 146096 by omega)
    omega
  refine ⟨hlt, ?_, ?_⟩
  · by_contra hbefore
    have hpos : yearOfEra doe ≠ 0 := by
      intro hzero
      rw [hzero] at hbefore
      exact hbefore (Nat.zero_le _)
    obtain ⟨y, hy⟩ : ∃ y, yearOfEra doe = y + 1 := ⟨yearOfEra doe - 1, by omega⟩
    rw [hy] at hbefore
    have hle := yearOfEra_mono (show doe ≤ eraYearStart (y + 1) - 1 by omega)
    rw [(yearOfEra_start y (by omega)).2] at hle
    omega
  · by_contra hafter
    by_cases hlast : yearOfEra doe = 399
    · rw [hlast] at hafter
      exact hafter h
    · have hle := yearOfEra_mono (Nat.not_lt.mp hafter)
      rw [(yearOfEra_start _ (by omega)).1] at hle
      omega

def marchMonth (doy : Nat) : Nat := (5 * doy + 2) / 153

theorem march_first (era : Int) {yoe : Nat} (h : yoe < 400) :
    146097 * era + eraYearStart yoe = monthStart (12 * (400 * era + yoe) + 2) + 719468 := by
  have hbefore : daysBefore 2 = 59 := rfl
  rw [monthStart_eq (by decide) (by decide), hbefore]
  by_cases hleap : isLeap (400 * era + yoe)
  · rw [if_pos ⟨hleap, by decide⟩]
    unfold isLeap at hleap
    unfold eraYearStart yearStart
    omega
  · rw [if_neg fun hboth => hleap hboth.1]
    unfold isLeap at hleap
    unfold eraYearStart yearStart
    omega

@[grind =] theorem monthLength_march (year : Int) {mp : Nat} (h : mp ≤ 10) :
    monthLength (12 * year + 2 + mp) = (153 * (mp + 1) + 2) / 5 - (153 * mp + 2) / 5 := by
  unfold monthLength
  interval_cases mp <;>
    (rw [if_neg (by omega)]; split <;> omega)

theorem isLeap_era (era year : Int) : isLeap (400 * era + year) ↔ isLeap year := by
  unfold isLeap
  omega

@[grind =]
theorem eraYearStart_eq (yoe : Nat) : (eraYearStart yoe : Int) = yearStart (yoe + 1) + 719162 := by
  unfold eraYearStart yearStart
  omega

@[grind =] theorem eraYearStart_succ (yoe : Nat) :
    (eraYearStart (yoe + 1) : Int) = eraYearStart yoe + if isLeap (yoe + 1) then 366 else 365 := by
  have hcast : ((yoe + 1 : Nat) : Int) = yoe + 1 := by omega
  rw [eraYearStart_eq, eraYearStart_eq, hcast, yearStart_succ]
  omega

theorem monthLength_february (year : Int) :
    monthLength (12 * year + 2 + (11 : Nat)) = if isLeap (year + 1) then 29 else 28 := by
  have hmonth : 12 * year + 2 + ((11 : Nat) : Int) = 12 * (year + 1) + 1 := by omega
  rw [hmonth, monthLength_eq (by decide) (by decide), if_pos rfl]

@[grind =] theorem monthStart_march (year : Int) {mp : Nat} (h : mp ≤ 11) :
    monthStart (12 * year + 2 + mp) = monthStart (12 * year + 2) + (153 * mp + 2) / 5 := by
  induction mp with
  | zero => simp
  | succ mp ih =>
    have hnext : 12 * year + 2 + ((mp + 1 : Nat) : Int) = 12 * year + 2 + mp + 1 := by omega
    rw [hnext, monthStart_succ, ih (by omega), monthLength_march year (by omega)]
    omega

theorem monthOf_era (era : Int) {yoe doy : Nat} (h : yoe < 400)
    (hdoy : eraYearStart yoe + doy < eraYearStart (yoe + 1)) :
    monthOf (146097 * era + eraYearStart yoe + doy - 719468) =
        12 * (400 * era + yoe) + 2 + marchMonth doy ∧
      dayOfMonth (146097 * era + eraYearStart yoe + doy - 719468) =
        doy - (153 * marchMonth doy + 2) / 5 + 1 := by
  have hfirst := march_first era h
  have hmp : marchMonth doy ≤ 11 := by
    unfold marchMonth
    unfold eraYearStart at hdoy
    omega
  have hstart := monthStart_march (400 * era + yoe) hmp
  have hmonth : monthOf (146097 * era + eraYearStart yoe + doy - 719468) =
      12 * (400 * era + yoe) + 2 + marchMonth doy := by
    refine monthOf_eq ?_ ?_
    · rw [hstart]
      unfold marchMonth
      omega
    · rw [monthStart_succ, hstart]
      by_cases hlast : marchMonth doy = 11
      · -- February, whose last day is the one before the next first of March
        have hnext := eraYearStart_succ yoe
        rw [hlast, monthLength_february, add_assoc (400 * era), if_congr (isLeap_era era _) rfl rfl]
        by_cases hleap : isLeap (yoe + 1)
        · rw [if_pos hleap] at hnext ⊢
          omega
        · rw [if_neg hleap] at hnext ⊢
          omega
      · rw [monthLength_march _ (by omega)]
        unfold marchMonth at hlast hmp ⊢
        omega
  refine ⟨hmonth, ?_⟩
  rw [dayOfMonth, hmonth, hstart]
  unfold marchMonth
  omega

end ProxBack.Lib.Calendar
