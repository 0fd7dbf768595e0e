import ProxBack.Lib.Era
import ProxBack.Store.Retention

/-! The periods that retention counts, as numbers that rise with time, and that `bucketKey` tells
exactly these apart. -/
namespace ProxBack.Store
open Lib Calendar
open Engine (Time)

def dayNumber (t : Time) : Int := daysSince t - 719162

/-- The day, the week from Monday to Sunday, the month or the year of an instant. The first day of
the year 1 is a Monday. -/
def period (t : Time) : Reason → Int
  | .daily => daysSince t
  | .weekly => daysSince t / 7
  | .monthly => monthOf (dayNumber t)
  | .yearly => monthOf (dayNumber t) / 12
  | .last => 0

theorem date_eq (days : Int) :
    (date days).1 = monthOf (days - 719162) / 12 ∧
      ((date days).2.1 : Int) = monthOf (days - 719162) % 12 + 1 ∧
      ((date days).2.2 : Int) = dayOfMonth (days - 719162) := by
  obtain ⟨doe, hdoe⟩ := Int.eq_ofNat_of_zero_le (show 0 ≤ (days + 306) % 146097 by omega)
  obtain ⟨hyoe, hstart, hnext⟩ := yearOfEra_spec (show doe < 146097 by omega)
  obtain ⟨yoe, hyear⟩ : ∃ yoe, yearOfEra doe = yoe := ⟨_, rfl⟩
  rw [hyear] at hyoe hstart hnext
  obtain ⟨doy, hday⟩ := Nat.exists_eq_add_of_le hstart
  obtain ⟨hmonth, hdayOfMonth⟩ :=
    monthOf_era ((days + 306) / 146097) hyoe (show eraYearStart yoe + doy < _ by omega)
  have hdays : 146097 * ((days + 306) / 146097) + eraYearStart yoe + doy - 719468 = days - 719162 := by
    omega
  rw [hdays] at hmonth hdayOfMonth
  have hrest : doe - (365 * yoe + yoe / 4 - yoe / 100) = doy := by
    unfold eraYearStart at hday
    omega
  unfold yearOfEra at hyear
  simp only [date, hdoe, Int.toNat_natCast, hyear, hrest, hmonth, hdayOfMonth]
  have hmp : (5 * doy + 2) / 153 = marchMonth doy := rfl
  rw [hmp]
  have hle : marchMonth doy ≤ 11 ∧ (153 * marchMonth doy + 2) / 5 ≤ doy := by
    unfold marchMonth
    unfold eraYearStart at hnext hday
    omega
  by_cases hspring : marchMonth doy < 10
  · rw [if_pos hspring, if_neg (by omega)]
    omega
  · rw [if_neg hspring, if_pos (by omega)]
    omega

@[simp] theorem toList_pushn (s : String) (c : Char) (n : Nat) :
    (s.pushn c n).toList = s.toList ++ List.replicate n c := by
  rw [String.pushn_eq_repeat_push]
  induction n with
  | zero => simp [Nat.repeat]
  | succ n ih => rw [Nat.repeat, String.toList_push, ih, List.replicate_succ', List.append_assoc]

@[simp] theorem toList_zeroPad (w n : Nat) : (zeroPad w n).toList =
    List.replicate (w - (Nat.toDigits 10 n).length) '0' ++ Nat.toDigits 10 n := by
  have hlen : (toString n).length = (Nat.toDigits 10 n).length := by
    rw [← String.length_toList, Nat.toString_eq_repr, Nat.toList_repr]
  rw [zeroPad, String.toList_append, toList_pushn, hlen, Nat.toString_eq_repr, Nat.toList_repr]
  rfl

theorem zeroPad_inj {w n m : Nat} (h : zeroPad w n = zeroPad w m) : n = m := by
  have hvalue : ∀ n, Nat.ofDigitChars 10 (zeroPad w n).toList 0 = n := by
    intro n
    rw [toList_zeroPad, Nat.ofDigitChars_append, Nat.ofDigitChars_replicate_zero, Nat.mul_zero,
      Nat.ofDigitChars_ten_toDigits]
  rw [← hvalue n, h, hvalue]

@[simp]
theorem length_zeroPad {w n : Nat} (hw : 0 < w) (h : n < 10 ^ w) : (zeroPad w n).toList.length = w := by
  have hle := (Nat.length_toDigits_le_iff (by decide) hw).mpr h
  rw [toList_zeroPad, List.length_append, List.length_replicate]
  omega

theorem isDigit_of_mem_zeroPad {w n : Nat} {c : Char} (h : c ∈ (zeroPad w n).toList) : c.isDigit = true := by
  rw [toList_zeroPad] at h
  rcases List.mem_append.mp h with h | h
  · rw [List.eq_of_mem_replicate h]
    rfl
  · exact Nat.isDigit_of_mem_toDigits (by decide) (by decide) h

theorem zeroPad_ne_signed {w v n m : Nat} : zeroPad w n ≠ "-" ++ zeroPad v m := by
  intro h
  have hmem : '-' ∈ (zeroPad w n).toList := by
    rw [h, String.toList_append]
    exact List.mem_append_left _ (List.mem_singleton_self '-')
  exact absurd (isDigit_of_mem_zeroPad hmem) (by decide)

theorem signed_inj {w v : Nat} {a b : Int}
    (h : (if a < 0 then "-" ++ zeroPad v a.natAbs else zeroPad w a.natAbs) =
      if b < 0 then "-" ++ zeroPad v b.natAbs else zeroPad w b.natAbs) : a = b := by
  split at h <;> split at h
  · have habs := zeroPad_inj (String.append_right_inj "-" |>.mp h)
    omega
  · exact absurd h.symm zeroPad_ne_signed
  · exact absurd h zeroPad_ne_signed
  · have habs := zeroPad_inj h
    omega

theorem formatYear_inj {a b : Int} (h : formatYear a = formatYear b) : a = b := signed_inj h

theorem sprintf04d_inj {a b : Int} (h : sprintf04d a = sprintf04d b) : a = b := signed_inj h

theorem append_zeroPad_inj {s t sep : String} {n m : Nat} (hn : n < 100) (hm : m < 100)
    (h : s ++ sep ++ zeroPad 2 n = t ++ sep ++ zeroPad 2 m) : s = t ∧ n = m := by
  have hlist := congrArg String.toList h
  simp only [String.toList_append] at hlist
  obtain ⟨hinit, hlast⟩ := List.append_inj' hlist
    ((length_zeroPad (w := 2) Nat.two_pos hn).trans (length_zeroPad (w := 2) Nat.two_pos hm).symm)
  exact ⟨String.toList_inj.mp (List.append_cancel_right hinit), zeroPad_inj (String.toList_inj.mp hlast)⟩

theorem date_bounds (days : Int) : (date days).2.1 < 100 ∧ (date days).2.2 < 100 := by
  obtain ⟨-, hmonth, hday⟩ := date_eq days
  have hbounds := dayOfMonth_bounds (days - 719162)
  have hlength := monthLength_bounds (monthOf (days - 719162))
  omega

theorem year_bounds (days : Int) :
    yearStart (date days).1 ≤ days ∧ days < yearStart (date days).1 + 366 := by
  obtain ⟨hlo, hhi⟩ := monthOf_spec (days - 719162)
  have hyear := (date_eq days).1
  have hstart : ∀ year, monthStart (12 * year) = yearStart year - 719162 := by
    intro year
    have hbefore : daysBefore 0 = 0 := rfl
    rw [← Int.add_zero (12 * year), monthStart_eq le_rfl (by decide), hbefore, if_neg (by omega)]
    unfold Calendar.yearStart yearStart
    omega
  have hfrom := monthStart_mono (show 12 * (date days).1 ≤ monthOf (days - 719162) by omega)
  have hto := monthStart_mono (show monthOf (days - 719162) + 1 ≤ 12 * ((date days).1 + 1) by omega)
  rw [hstart] at hfrom hto
  have hlength : yearStart ((date days).1 + 1) ≤ yearStart (date days).1 + 366 := by
    unfold yearStart
    omega
  omega

theorem isoWeek_bounds (days : Int) : 0 ≤ (isoWeek days).2 ∧ (isoWeek days).2 < 100 := by
  have hbounds := year_bounds (days - days % 7 + 3)
  unfold isoWeek
  dsimp only
  omega

@[grind =] theorem isoWeek_eq_iff (d d' : Int) :
    ((isoWeek d).1 = (isoWeek d').1 ∧ (isoWeek d).2 = (isoWeek d').2) ↔ d / 7 = d' / 7 := by
  constructor
  · unfold isoWeek
    dsimp only
    rintro ⟨hyear, hweek⟩
    rw [hyear] at hweek
    omega
  · intro heq
    have hthursday : d - d % 7 + 3 = d' - d' % 7 + 3 := by omega
    unfold isoWeek
    rw [hthursday]
    exact ⟨rfl, rfl⟩

@[grind =] theorem bucketKey_eq_iff {ρ : Reason} (hρ : ρ ≠ .last) (t t' : Time) :
    bucketKey t ρ = bucketKey t' ρ ↔ period t ρ = period t' ρ := by
  have hdate := date_eq (daysSince t)
  have hdate' := date_eq (daysSince t')
  obtain ⟨hmonth, hday⟩ := date_bounds (daysSince t)
  obtain ⟨hmonth', hday'⟩ := date_bounds (daysSince t')
  cases ρ with
  | last => exact absurd rfl hρ
  | daily =>
    constructor
    · intro h
      obtain ⟨hrest, hd⟩ := append_zeroPad_inj hday hday' h
      obtain ⟨hyear, hm⟩ := append_zeroPad_inj hmonth hmonth' hrest
      have hy := formatYear_inj hyear
      have hsame : monthOf (daysSince t - 719162) = monthOf (daysSince t' - 719162) := by omega
      have hof := monthStart_dayOfMonth (daysSince t - 719162)
      have hof' := monthStart_dayOfMonth (daysSince t' - 719162)
      rw [hsame] at hof
      show daysSince t = daysSince t'
      omega
    · intro h
      have hsame : daysSince t = daysSince t' := h
      rw [bucketKey, bucketKey, hsame]
  | weekly =>
    obtain ⟨hlo, hhi⟩ := isoWeek_bounds (daysSince t)
    obtain ⟨hlo', hhi'⟩ := isoWeek_bounds (daysSince t')
    rw [show period t .weekly = daysSince t / 7 from rfl, show period t' .weekly = daysSince t' / 7 from rfl,
      ← isoWeek_eq_iff]
    constructor
    · intro h
      obtain ⟨hyear, hweek⟩ := append_zeroPad_inj (by omega) (by omega) h
      exact ⟨sprintf04d_inj hyear, by omega⟩
    · rintro ⟨hyear, hweek⟩
      rw [bucketKey, bucketKey, hyear, hweek]
  | monthly =>
    constructor
    · intro h
      obtain ⟨hyear, hm⟩ := append_zeroPad_inj hmonth hmonth' h
      have hy := formatYear_inj hyear
      show monthOf (daysSince t - 719162) = monthOf (daysSince t' - 719162)
      omega
    · intro h
      have hsame : monthOf (daysSince t - 719162) = monthOf (daysSince t' - 719162) := h
      have hy : (date (daysSince t)).1 = (date (daysSince t')).1 := by omega
      have hm : (date (daysSince t)).2.1 = (date (daysSince t')).2.1 := by omega
      rw [bucketKey, bucketKey, hy, hm]
  | yearly =>
    show formatYear _ = formatYear _ ↔ monthOf (daysSince t - 719162) / 12 = monthOf (daysSince t' - 719162) / 12
    rw [← hdate.1, ← hdate'.1]
    exact ⟨formatYear_inj, fun h => by rw [h]⟩

theorem period_mono {t t' : Time} (h : t ≤ t') (ρ : Reason) : period t ρ ≤ period t' ρ := by
  have hdays : daysSince t ≤ daysSince t' := Int.ediv_le_ediv (by decide) h
  have hmonth : monthOf (dayNumber t) ≤ monthOf (dayNumber t') := monthOf_mono (by
    unfold dayNumber
    omega)
  cases ρ with
  | last => exact le_rfl
  | daily => exact hdays
  | weekly => exact Int.ediv_le_ediv (by decide) hdays
  | monthly => exact hmonth
  | yearly => exact Int.ediv_le_ediv (by decide) hmonth

end ProxBack.Store
