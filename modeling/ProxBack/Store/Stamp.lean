import ProxBack.Lib.Calendar
import ProxBack.Lib.Decimal
import Mathlib.Data.List.DropRight

/-! The timestamps of the database, which are texts, and the instants that they are for, in
nanoseconds since 1970. -/
namespace ProxBack.Store
open Lib Calendar Decimal

/-- `2006`: four digits at least. -/
def yearText (y : Int) : List Char :=
  (if y < 0 then ['-'] else []) ++ if y.natAbs < 10 ^ 4 then fixed 4 y.natAbs else numeral y.natAbs

/-- `2006-01-02T15:04:05` of a second since 1970. -/
def secondText (s : Int) : List Char :=
  yearText (monthOf (s / 86400) / 12) ++ '-' :: (fixed 2 (monthOf (s / 86400) % 12 + 1).toNat ++
    '-' :: (fixed 2 (dayOfMonth (s / 86400)).toNat ++ 'T' :: (fixed 2 (s % 86400 / 3600).toNat ++
      ':' :: (fixed 2 (s % 3600 / 60).toNat ++ ':' :: fixed 2 (s % 60).toNat))))

/-- `timeLayout`, in UTC: nine digits of a fraction, always. -/
def fmtTime (t : Int) : List Char :=
  secondText (t / 10 ^ 9) ++ '.' :: (fixed 9 (t % 10 ^ 9).toNat ++ ['Z'])

def shortDigits (t : Int) : List Char := (fixed 9 (t % 10 ^ 9).toNat).rdropWhile (· = '0')

/-- `time.RFC3339Nano`, in UTC, which earlier releases wrote. -/
def fmtNano (t : Int) : List Char :=
  secondText (t / 10 ^ 9) ++ ((if shortDigits t = [] then [] else '.' :: shortDigits t) ++ ['Z'])

def readNumber (w : Nat) (s : List Char) : Option (Nat × List Char) :=
  if w ≤ s.length ∧ (s.take w).all isDigit then some (value (s.take w), s.drop w) else none

def readChar (c : Char) : List Char → Option (List Char)
  | [] => none
  | d :: s => if d = c then some s else none

def readFraction : List Char → Option (Nat × List Char)
  | [] => some (0, [])
  | c :: s =>
    if c = '.' ∨ c = ',' then
      let digits := s.takeWhile isDigit
      if digits = [] then none
      else some (value (digits.take 9) * 10 ^ (9 - digits.length), s.dropWhile isDigit)
    else some (0, c :: s)

def readZone : List Char → Option Int
  | ['Z'] => some 0
  | [sign, h, h', ':', m, m'] =>
    if [h, h', m, m'].all isDigit ∧ value [h, h'] ≤ 24 ∧ value [m, m'] ≤ 60 then
      if sign = '+' then some (value [h, h'] * 3600 + value [m, m'] * 60)
      else if sign = '-' then some (-(value [h, h'] * 3600 + value [m, m'] * 60))
      else none
    else none
  | _ => none

def timeOf (year month day hour minute second nanos : Nat) (offset : Int) : Option Int :=
  if 1 ≤ month ∧ month ≤ 12 ∧ 1 ≤ day ∧ (day : Int) ≤ monthLength (12 * year + month - 1) ∧
      hour < 24 ∧ minute < 60 ∧ second < 60 then
    some (((monthStart (12 * year + month - 1) + day - 1) * 86400 + hour * 3600 + minute * 60 + second -
      offset) * 10 ^ 9 + nanos)
  else none

def readHour (s : List Char) : Option (Nat × List Char) := (readNumber 2 s).orElse fun _ => readNumber 1 s

def timeParse (v : List Char) : Option Int := do
  let (year, v) ← readNumber 4 v
  let v ← readChar '-' v
  let (month, v) ← readNumber 2 v
  let v ← readChar '-' v
  let (day, v) ← readNumber 2 v
  let v ← readChar 'T' v
  let (hour, v) ← readHour v
  let v ← readChar ':' v
  let (minute, v) ← readNumber 2 v
  let v ← readChar ':' v
  let (second, v) ← readNumber 2 v
  let (nanos, v) ← readFraction v
  let offset ← readZone v
  timeOf year month day hour minute second nanos offset

def zeroTime : Int := monthStart 12 * 86400 * 10 ^ 9

def parseTime (v : List Char) : Int := (timeParse v).getD zeroTime

def InYears (s : Int) : Prop := 0 ≤ monthOf (s / 86400) ∧ monthOf (s / 86400) < 120000

instance (s : Int) : Decidable (InYears s) := inferInstanceAs (Decidable (_ ∧ _))

theorem secondText_eq {s : Int} (h : InYears s) : secondText s =
    fixed 4 (monthOf (s / 86400) / 12).toNat ++ '-' :: (fixed 2 (monthOf (s / 86400) % 12 + 1).toNat ++
      '-' :: (fixed 2 (dayOfMonth (s / 86400)).toNat ++ 'T' :: (fixed 2 (s % 86400 / 3600).toNat ++
        ':' :: (fixed 2 (s % 3600 / 60).toNat ++ ':' :: fixed 2 (s % 60).toNat)))) := by
  obtain ⟨hlo, hhi⟩ := h
  have hnat : (monthOf (s / 86400) / 12).natAbs = (monthOf (s / 86400) / 12).toNat := by omega
  rw [secondText, yearText, if_neg (by omega), if_pos (by omega), hnat, List.nil_append]

theorem secondText_lt {s s' : Int} (h : s < s') (hs : InYears s) (hs' : InYears s') (x y : List Char) :
    secondText s ++ x < secondText s' ++ y := by
  have hlo := hs.1
  have hhi := hs'.2
  have hdate := dayOfMonth_bounds (s / 86400)
  have hdate' := dayOfMonth_bounds (s' / 86400)
  have hlength := monthLength_bounds (monthOf (s' / 86400))
  have hday := monthStart_dayOfMonth (s / 86400)
  have hday' := monthStart_dayOfMonth (s' / 86400)
  have hmono := monthOf_mono (show s / 86400 ≤ s' / 86400 by omega)
  have hsame : monthOf (s / 86400) = monthOf (s' / 86400) →
      monthStart (monthOf (s / 86400)) = monthStart (monthOf (s' / 86400)) := congrArg monthStart
  rw [secondText_eq hs, secondText_eq hs']
  simp only [List.append_assoc, List.cons_append]
  refine fixed_append_lt (by omega) ?_
  by_cases hyear : monthOf (s / 86400) / 12 < monthOf (s' / 86400) / 12
  · exact .inl (by omega)
  refine .inr ⟨by omega, List.cons_lt_cons_iff.mpr (.inr ⟨rfl, fixed_append_lt (by omega) ?_⟩)⟩
  by_cases hmonth : monthOf (s / 86400) < monthOf (s' / 86400)
  · exact .inl (by omega)
  refine .inr ⟨by omega, List.cons_lt_cons_iff.mpr (.inr ⟨rfl, fixed_append_lt (by omega) ?_⟩)⟩
  have hsame' := hsame (by omega)
  by_cases hd : s / 86400 < s' / 86400
  · exact .inl (by omega)
  refine .inr ⟨by omega, List.cons_lt_cons_iff.mpr (.inr ⟨rfl, fixed_append_lt (by omega) ?_⟩)⟩
  by_cases hhour : s % 86400 / 3600 < s' % 86400 / 3600
  · exact .inl (by omega)
  refine .inr ⟨by omega, List.cons_lt_cons_iff.mpr (.inr ⟨rfl, fixed_append_lt (by omega) ?_⟩)⟩
  by_cases hminute : s % 3600 / 60 < s' % 3600 / 60
  · exact .inl (by omega)
  exact .inr ⟨by omega, List.cons_lt_cons_iff.mpr (.inr ⟨rfl, fixed_append_lt (by omega) (.inl (by omega))⟩)⟩

theorem secondText_injective {s s' : Int} (hs : InYears s) (hs' : InYears s')
    (h : secondText s = secondText s') : s = s' := by
  rcases lt_trichotomy s s' with hlt | rfl | hgt
  · have habs := secondText_lt hlt hs hs' [] []
    rw [h] at habs
    exact absurd habs (lt_irrefl _)
  · rfl
  · have habs := secondText_lt hgt hs' hs [] []
    rw [h] at habs
    exact absurd habs (lt_irrefl _)

@[simp] theorem length_secondText {s : Int} (h : InYears s) : (secondText s).length = 19 := by
  simp [secondText_eq h]

theorem readNumber_fixed {w n : Nat} (h : n < 10 ^ w) (s : List Char) :
    readNumber w (fixed w n ++ s) = some (n, s) := by
  have htake : (fixed w n ++ s).take w = fixed w n := List.take_left' (length_fixed w n)
  have hdrop : (fixed w n ++ s).drop w = s := List.drop_left' (length_fixed w n)
  rw [readNumber, htake, hdrop, value_fixed h, if_pos]
  exact ⟨by simp, List.all_eq_true.mpr isDigit_of_mem_fixed⟩

theorem readHour_fixed {n : Nat} (h : n < 10 ^ 2) (s : List Char) :
    readHour (fixed 2 n ++ s) = some (n, s) := by
  rw [readHour, readNumber_fixed h]
  rfl

@[simp] theorem readChar_self (c : Char) (s : List Char) : readChar c (c :: s) = some s := if_pos rfl

theorem timeOf_second {s : Int} (hs : InYears s) (nanos : Nat) (offset : Int) :
    timeOf (monthOf (s / 86400) / 12).toNat (monthOf (s / 86400) % 12 + 1).toNat
        (dayOfMonth (s / 86400)).toNat (s % 86400 / 3600).toNat (s % 3600 / 60).toNat (s % 60).toNat
        nanos offset = some ((s - offset) * 10 ^ 9 + nanos) := by
  have hlo := hs.1
  have hdate := dayOfMonth_bounds (s / 86400)
  have hlength := monthLength_bounds (monthOf (s / 86400))
  have hday := monthStart_dayOfMonth (s / 86400)
  have hmonth : 12 * ((monthOf (s / 86400) / 12).toNat : Int) +
      ((monthOf (s / 86400) % 12 + 1).toNat : Int) - 1 = monthOf (s / 86400) := by omega
  rw [timeOf, hmonth, if_pos (by omega)]
  congr 3
  omega

theorem bind_of_some {α β : Type} {x : Option α} {a : α} (h : x = some a) (f : α → Option β) :
    (x >>= f) = f a := by
  rw [h]
  rfl

theorem timeParse_fixed {year month day hour minute second : Nat} (hyear : year < 10 ^ 4)
    (hmonth : month < 10 ^ 2) (hday : day < 10 ^ 2) (hhour : hour < 10 ^ 2) (hminute : minute < 10 ^ 2)
    (hsecond : second < 10 ^ 2) (tail : List Char) :
    timeParse ((fixed 4 year ++ '-' :: (fixed 2 month ++ '-' :: (fixed 2 day ++ 'T' ::
      (fixed 2 hour ++ ':' :: (fixed 2 minute ++ ':' :: fixed 2 second))))) ++ tail) =
      (readFraction tail).bind fun read => (readZone read.2).bind fun offset =>
        timeOf year month day hour minute second read.1 offset := by
  simp only [List.append_assoc, List.cons_append]
  unfold timeParse
  refine (bind_of_some (readNumber_fixed hyear _) _).trans ?_
  refine (bind_of_some (readChar_self _ _) _).trans ?_
  refine (bind_of_some (readNumber_fixed hmonth _) _).trans ?_
  refine (bind_of_some (readChar_self _ _) _).trans ?_
  refine (bind_of_some (readNumber_fixed hday _) _).trans ?_
  refine (bind_of_some (readChar_self _ _) _).trans ?_
  refine (bind_of_some (readHour_fixed hhour _) _).trans ?_
  refine (bind_of_some (readChar_self _ _) _).trans ?_
  refine (bind_of_some (readNumber_fixed hminute _) _).trans ?_
  refine (bind_of_some (readChar_self _ _) _).trans ?_
  exact bind_of_some (readNumber_fixed hsecond _) _

@[grind =] theorem timeParse_secondText {s : Int} (hs : InYears s) (tail : List Char) :
    timeParse (secondText s ++ tail) =
      (readFraction tail).bind fun read => (readZone read.2).bind fun offset =>
        some ((s - offset) * 10 ^ 9 + read.1) := by
  have hlo := hs.1
  have hhi := hs.2
  have hdate := dayOfMonth_bounds (s / 86400)
  have hlength := monthLength_bounds (monthOf (s / 86400))
  have hyear : (monthOf (s / 86400) / 12).toNat < 10 ^ 4 := by omega
  have htwo : ∀ n : Int, n < 100 → n.toNat < 10 ^ 2 := by omega
  rw [secondText_eq hs, timeParse_fixed hyear (htwo _ (by omega)) (htwo _ (by omega)) (htwo _ (by omega))
    (htwo _ (by omega)) (htwo _ (by omega))]
  simp only [timeOf_second hs]

theorem readFraction_digits {d : List Char} (hne : d ≠ []) (hd : ∀ c ∈ d, isDigit c = true)
    (hlen : d.length ≤ 9) :
    readFraction ('.' :: (d ++ ['Z'])) = some (value d * 10 ^ (9 - d.length), ['Z']) := by
  have htake : (d ++ ['Z']).takeWhile isDigit = d := by
    rw [List.takeWhile_append_of_pos hd]
    exact List.append_nil d
  have hdrop : (d ++ ['Z']).dropWhile isDigit = ['Z'] := by
    rw [List.dropWhile_append_of_pos hd]
    rfl
  rw [readFraction, if_pos (.inl rfl), htake, hdrop]
  dsimp only
  rw [if_neg hne, List.take_of_length_le hlen]

/-- Of a timestamp: what stands between the whole second and the `Z`, and the rest of the nine
digits, which are zeros. -/
structure Fraction (nanos : Nat) (f rest : List Char) : Prop where
  full : '.' :: fixed 9 nanos = f ++ rest
  none : f = [] → nanos = 0
  zeros : f ≠ [] → ∀ c ∈ rest, c = '0'
  read : readFraction (f ++ ['Z']) = some (nanos, ['Z'])

@[grind =] theorem value_zeros {s : List Char} (h : ∀ c ∈ s, c = '0') : value s = 0 := by
  induction s using List.reverseRecOn with
  | nil => rfl
  | append_singleton s c ih =>
    have hc : c = '0' := h c (by simp)
    rw [value_append, ih fun c hc => h c (by simp [hc]), hc]
    rfl

theorem fraction_fixed {n : Nat} (h : n < 10 ^ 9) : Fraction n ('.' :: fixed 9 n) [] where
  full := by rw [List.append_nil]
  none := nofun
  zeros := nofun
  read := by
    have hne : fixed 9 n ≠ [] := by
      rw [← List.length_pos_iff, length_fixed]
      decide
    rw [List.cons_append, readFraction_digits hne isDigit_of_mem_fixed (by simp), value_fixed h]
    simp

theorem fraction_short {n : Nat} (h : n < 10 ^ 9) :
    ∃ rest, Fraction n (if (fixed 9 n).rdropWhile (· = '0') = [] then []
      else '.' :: (fixed 9 n).rdropWhile (· = '0')) rest := by
  have hsplit : (fixed 9 n).rdropWhile (· = '0') ++ (fixed 9 n).rtakeWhile (· = '0') = fixed 9 n :=
    List.rdropWhile_append_rtakeWhile
  have hzeros : ∀ c ∈ (fixed 9 n).rtakeWhile (· = '0'), c = '0' := by
    intro c hc
    have hzero := List.mem_rtakeWhile_imp hc
    exact of_decide_eq_true hzero
  have hvalue : n = value ((fixed 9 n).rdropWhile (· = '0')) *
      10 ^ ((fixed 9 n).rtakeWhile (· = '0')).length := by
    have happend := value_append ((fixed 9 n).rdropWhile (· = '0')) ((fixed 9 n).rtakeWhile (· = '0'))
    rw [hsplit, value_fixed h, value_zeros hzeros, Nat.add_zero] at happend
    exact happend
  have hlen : ((fixed 9 n).rdropWhile (· = '0')).length + ((fixed 9 n).rtakeWhile (· = '0')).length = 9 := by
    rw [← List.length_append, hsplit, length_fixed]
  by_cases hnone : (fixed 9 n).rdropWhile (· = '0') = []
  · rw [if_pos hnone]
    rw [hnone, value, List.foldl_nil, Nat.zero_mul] at hvalue
    exact ⟨'.' :: fixed 9 n, rfl, fun _ => hvalue, fun hne => absurd rfl hne, by rw [hvalue]; rfl⟩
  · rw [if_neg hnone]
    refine ⟨(fixed 9 n).rtakeWhile (· = '0'), ?_, by simp, fun _ => hzeros, ?_⟩
    · rw [List.cons_append, hsplit]
    · have hdigits : ∀ c ∈ (fixed 9 n).rdropWhile (· = '0'), isDigit c = true := fun c hc =>
        isDigit_of_mem_fixed c (hsplit ▸ List.mem_append_left _ hc)
      rw [List.cons_append, readFraction_digits hnone hdigits (by omega)]
      have hexp : 9 - ((fixed 9 n).rdropWhile (· = '0')).length =
          ((fixed 9 n).rtakeWhile (· = '0')).length := by omega
      rw [hexp, ← hvalue]

structure IsStamp (v : List Char) (t : Int) : Prop where
  years : InYears (t / 10 ^ 9)
  written : v = fmtTime t ∨ v = fmtNano t

section
variable {v v' : List Char} {t t' : Int}

theorem IsStamp.fraction (h : IsStamp v t) :
    ∃ f rest, v = secondText (t / 10 ^ 9) ++ (f ++ ['Z']) ∧ Fraction (t % 10 ^ 9).toNat f rest := by
  have hnanos : (t % 10 ^ 9).toNat < 10 ^ 9 := by omega
  rcases h.written with rfl | rfl
  · exact ⟨_, _, rfl, fraction_fixed hnanos⟩
  · obtain ⟨rest, hrest⟩ := fraction_short hnanos
    exact ⟨_, rest, rfl, hrest⟩

theorem IsStamp.parse (h : IsStamp v t) : timeParse v = some t := by
  obtain ⟨f, rest, rfl, hf⟩ := h.fraction
  rw [timeParse_secondText h.years, hf.read]
  have hzone : readZone ['Z'] = some 0 := rfl
  dsimp only [Option.bind_some]
  rw [hzone]
  dsimp only [Option.bind_some]
  congr 1
  omega

theorem IsStamp.parseTime_eq (h : IsStamp v t) : parseTime v = t := by
  rw [parseTime, h.parse, Option.getD_some]

/-- The one timestamp without its `Z` is a beginning of the other: they are of one second, and
the fraction of the one goes on with that of the other. -/
def Continues (v v' : List Char) : Prop := v.dropLast <+: v'.dropLast ∧ v ≠ v'

instance (v v' : List Char) : Decidable (Continues v v') := inferInstanceAs (Decidable (_ ∧ _))

theorem body_eq (s f : List Char) : (s ++ (f ++ ['Z'])).dropLast = s ++ f := by
  rw [← List.append_assoc, List.dropLast_concat]

theorem Fraction.le {n n' : Nat} {f rest f' rest' : List Char} (h : Fraction n f rest)
    (h' : Fraction n' f' rest') (hn : n < 10 ^ 9) (hn' : n' < 10 ^ 9) (hbegins : f <+: f') : n ≤ n' := by
  cases f with
  | nil =>
    rw [h.none rfl]
    exact Nat.zero_le _
  | cons c d =>
    obtain ⟨tail, rfl⟩ := hbegins
    have hfull := h.full
    have hfull' := h'.full
    rw [List.cons_append] at hfull
    rw [List.cons_append, List.cons_append] at hfull'
    obtain ⟨rfl, hd⟩ := List.cons.inj hfull
    obtain ⟨-, hd'⟩ := List.cons.inj hfull'
    have hlen := congrArg List.length hd
    have hlen' := congrArg List.length hd'
    rw [List.append_assoc] at hd'
    have hvalue := congrArg value hd
    have hvalue' := congrArg value hd'
    rw [value_fixed hn, value_append, value_zeros (h.zeros nofun), Nat.add_zero] at hvalue
    rw [value_fixed hn', value_append] at hvalue'
    have hsame : rest.length = (tail ++ rest').length := by
      simp only [length_fixed, List.length_append] at hlen hlen' ⊢
      omega
    rw [hvalue, hvalue', hsame]
    exact Nat.le_add_right _ _

theorem Fraction.lt_Z {n : Nat} {f rest : List Char} (h : Fraction n f rest) : ∀ c ∈ f, c < 'Z' := by
  intro c hc
  have hmem : c ∈ '.' :: fixed 9 n := by
    rw [h.full]
    exact List.mem_append_left _ hc
  rcases List.mem_cons.mp hmem with rfl | hmem
  · decide
  · have hdigit := of_decide_eq_true (isDigit_of_mem_fixed c hmem)
    exact hdigit.2.trans_lt (by decide)

theorem lt_of_continues (h : IsStamp v t) (h' : IsStamp v' t') (hcont : Continues v v') :
    v' < v ∧ t ≤ t' := by
  obtain ⟨f, rest, rfl, hf⟩ := h.fraction
  obtain ⟨f', rest', rfl, hf'⟩ := h'.fraction
  obtain ⟨hbegins, hne⟩ := hcont
  rw [body_eq, body_eq] at hbegins
  obtain ⟨tail, htail⟩ := hbegins
  rw [List.append_assoc] at htail
  obtain ⟨hsecond, hfrac⟩ := List.append_inj htail (by rw [length_secondText h.years, length_secondText h'.years])
  have hs := secondText_injective h.years h'.years hsecond
  have hle := hf.le hf' (by omega) (by omega) ⟨tail, hfrac⟩
  refine ⟨?_, by omega⟩
  rw [hsecond, ← hfrac]
  cases tail with
  | nil =>
    rw [List.append_nil] at hfrac
    rw [hsecond, hfrac] at hne
    exact absurd rfl hne
  | cons c tail =>
    have hc := hf'.lt_Z c (by rw [← hfrac]; simp)
    rw [List.append_assoc]
    refine List.append_left_lt (List.append_left_lt ?_)
    exact List.cons_lt_cons_iff.mpr (.inl hc)

theorem lt_iff_of_not_continues (h : IsStamp v t) (h' : IsStamp v' t') (hcont : ¬ Continues v v')
    (hcont' : ¬ Continues v' v) : v < v' ↔ t < t' := by
  by_cases hsame : v = v'
  · have ht : t = t' := Option.some.inj (h.parse.symm.trans (hsame ▸ h'.parse))
    rw [hsame, ht]
    exact iff_of_false (lt_irrefl _) (lt_irrefl _)
  obtain ⟨f, rest, rfl, hf⟩ := h.fraction
  obtain ⟨f', rest', rfl, hf'⟩ := h'.fraction
  rcases lt_trichotomy (t / 10 ^ 9) (t' / 10 ^ 9) with hlt | heq | hgt
  · exact iff_of_true (secondText_lt hlt h.years h'.years _ _) (by omega)
  · rw [heq] at hcont hcont' hsame ⊢
    unfold Continues at hcont hcont'
    rw [body_eq, body_eq] at hcont hcont'
    -- the fractions differ before either ends, as they do with all their digits
    have hf₁ : ¬ f <+: f' := fun hbegins =>
      hcont ⟨(List.prefix_append_right_inj _).mpr hbegins, hsame⟩
    have hf₂ : ¬ f' <+: f := fun hbegins =>
      hcont' ⟨(List.prefix_append_right_inj _).mpr hbegins, fun heq => hsame heq.symm⟩
    have hdigits : f < f' ↔ (t % 10 ^ 9).toNat < (t' % 10 ^ 9).toNat := by
      rw [← append_lt_iff hf₁ hf₂ rest rest', ← hf.full, ← hf'.full, List.cons_lt_cons_iff]
      constructor
      · rintro (habs | ⟨-, hlt⟩)
        · exact absurd habs (lt_irrefl _)
        · by_contra hle
          rcases Nat.lt_or_eq_of_le (Nat.not_lt.mp hle) with hgt | heq
          · exact lt_asymm hlt (fixed_lt hgt (by omega))
          · rw [heq] at hlt
            exact lt_irrefl _ hlt
      · intro hlt
        exact .inr ⟨rfl, fixed_lt hlt (by omega)⟩
    constructor
    · intro hlt
      have hfrac : f < f' := by
        by_contra hge
        have hgt : f' < f := lt_of_le_of_ne (not_lt.mp hge) fun heq => hf₁ (heq ▸ List.prefix_rfl)
        exact lt_asymm hlt (List.append_left_lt ((append_lt_iff hf₂ hf₁ _ _).mpr hgt))
      have hnanos := hdigits.mp hfrac
      omega
    · intro hlt
      exact List.append_left_lt ((append_lt_iff hf₁ hf₂ _ _).mpr (hdigits.mpr (by omega)))
  · have hgt' := secondText_lt hgt h'.years h.years (f' ++ ['Z']) (f ++ ['Z'])
    exact iff_of_false (lt_asymm hgt') (by omega)

def TextOrdered (vs : List (List Char)) : Prop :=
  ∀ v ∈ vs, ∀ v' ∈ vs, v < v' ↔ parseTime v < parseTime v'

theorem textOrdered_iff {vs : List (List Char)} (hvs : ∀ v ∈ vs, ∃ t, IsStamp v t) :
    TextOrdered vs ↔ ∀ v ∈ vs, ∀ v' ∈ vs, ¬ Continues v v' := by
  constructor
  · intro hordered v hv v' hv' hcont
    obtain ⟨t, ht⟩ := hvs v hv
    obtain ⟨t', ht'⟩ := hvs v' hv'
    obtain ⟨hlt, hle⟩ := lt_of_continues ht ht' hcont
    have htime := (hordered v' hv' v hv).mp hlt
    rw [ht.parseTime_eq, ht'.parseTime_eq] at htime
    exact absurd htime hle.not_gt
  · intro hnone v hv v' hv'
    obtain ⟨t, ht⟩ := hvs v hv
    obtain ⟨t', ht'⟩ := hvs v' hv'
    rw [ht.parseTime_eq, ht'.parseTime_eq]
    exact lt_iff_of_not_continues ht ht' (hnone v hv v' hv') (hnone v' hv' v hv)

end

@[simp] theorem length_fmtTime {t : Int} (h : InYears (t / 10 ^ 9)) : (fmtTime t).length = 30 := by
  rw [fmtTime, List.length_append, length_secondText h]
  simp

theorem not_continues_fmtTime {t t' : Int} (h : InYears (t / 10 ^ 9)) (h' : InYears (t' / 10 ^ 9)) :
    ¬ Continues (fmtTime t) (fmtTime t') := by
  rintro ⟨hbegins, hne⟩
  have hlen : (fmtTime t).dropLast.length = (fmtTime t').dropLast.length := by
    rw [List.length_dropLast, List.length_dropLast, length_fmtTime h, length_fmtTime h']
  have hbody := hbegins.eq_of_length hlen
  have hZ : ∀ t, fmtTime t = (fmtTime t).dropLast ++ ['Z'] := by
    intro t
    have hshape : fmtTime t = secondText (t / 10 ^ 9) ++ (('.' :: fixed 9 (t % 10 ^ 9).toNat) ++ ['Z']) := rfl
    rw [hshape, body_eq, List.append_assoc]
  rw [hZ t, hZ t', hbody] at hne
  exact hne rfl

/-- Within the years 0000 to 9999, texts of this release are in the order of their instants and are
read as these, and what an earlier release wrote for an instant is written anew as the text of this
release. -/
theorem timestamps_canonical {a b : Int} (ha : InYears (a / 10 ^ 9)) (hb : InYears (b / 10 ^ 9)) :
    (fmtTime a < fmtTime b ↔ a < b) ∧ parseTime (fmtTime a) = a ∧ parseTime (fmtNano a) = a ∧
      fmtTime (parseTime (fmtNano a)) = fmtTime a := by
  have hstamp : IsStamp (fmtTime a) a := ⟨ha, .inl rfl⟩
  have hstamp' : IsStamp (fmtTime b) b := ⟨hb, .inl rfl⟩
  have hnano : IsStamp (fmtNano a) a := ⟨ha, .inr rfl⟩
  refine ⟨?_, hstamp.parseTime_eq, hnano.parseTime_eq, congrArg fmtTime hnano.parseTime_eq⟩
  exact lt_iff_of_not_continues hstamp hstamp' (not_continues_fmtTime ha hb) (not_continues_fmtTime hb ha)

/-- At nine tenths and at eighty-five hundredths of the first second of 1970. -/
theorem timestamps_canonical_tenths :
    fmtTime (85 * 10 ^ 7) < fmtTime (9 * 10 ^ 8) ∧ parseTime (fmtNano (9 * 10 ^ 8)) = 9 * 10 ^ 8 := by
  have hyears : InYears (85 * 10 ^ 7 / 10 ^ 9) := by decide +kernel
  have hyears' : InYears (9 * 10 ^ 8 / 10 ^ 9) := by decide +kernel
  exact ⟨(timestamps_canonical hyears hyears').1.mpr (by decide), (timestamps_canonical hyears' hyears).2.2.1⟩

/-- The first instant of the year 10000, whose year is written with five digits: the text is none
that can be read, and is written anew as the zero time. -/
theorem year_10000_lost : ∃ t : Int, fmtTime (parseTime (fmtNano t)) ≠ fmtTime t := by
  have htext : fmtNano (253402300800 * 10 ^ 9) = "10000-01-01T00:00:00Z".toList := by
    rw [fmtNano, secondText, yearText, if_neg (by decide +kernel), if_neg (by decide +kernel)]
    decide +kernel
  refine ⟨253402300800 * 10 ^ 9, ?_⟩
  rw [htext]
  decide +kernel

end ProxBack.Store
