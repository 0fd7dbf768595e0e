import ProxBack.Lib.Calendar
import ProxBack.Lib.Text
import ProxBack.Store.Schedule

/-! Cron expressions of five fields, as far as the schedules of the product use them, and the
library that the expressions are handed to. -/
namespace ProxBack.Store
open Lib Text Calendar
open Engine (Time)

def allDigits (s : List Char) : Bool := s ≠ [] ∧ ∀ c ∈ s, (digit? c).isSome

def atoi (s : List Char) : Nat := s.foldl (fun n c => n * 10 + (digit? c).getD 0) 0

def cronInt (field : List Char) (min max : Nat) : Option Nat :=
  if allDigits field ∧ min ≤ atoi field ∧ atoi field ≤ max then some (atoi field) else none

/-- `%d`. -/
def itoa (n : Int) : List Char := (toString n).toList

inductive CronField where
  | any
  | oneOf (ns : List Nat)
  | range (lo hi : Nat)
deriving DecidableEq, Repr

namespace CronField

def Allows : CronField → Int → Prop
  | any, _ => True
  | oneOf ns, n => ∃ m ∈ ns, (m : Int) = n
  | range lo hi, n => (lo : Int) ≤ n ∧ n ≤ hi

instance (f : CronField) (n : Int) : Decidable (f.Allows n) :=
  match f with
  | any => inferInstanceAs (Decidable True)
  | oneOf ns => inferInstanceAs (Decidable (∃ m ∈ ns, (m : Int) = n))
  | range lo hi => inferInstanceAs (Decidable ((lo : Int) ≤ n ∧ n ≤ hi))

def read (min max : Nat) (field : List Char) : Option CronField :=
  if field = ['*'] then some any
  else
    match (field.splitOn ',').mapM fun part => cronInt part min max with
    | some ns => some (oneOf ns)
    | none =>
      match field.splitOn '-' with
      | [lo, hi] =>
        match cronInt lo min max, cronInt hi min max with
        | some lo, some hi => if lo ≤ hi then some (range lo hi) else none
        | _, _ => none
      | _ => none

end CronField

structure CronSpec where
  minute : CronField
  hour : CronField
  dom : CronField
  month : CronField
  dow : CronField
deriving DecidableEq, Repr

/-- An expression whose fields are all of these, and at most one of the two that restrict the
day is not a star. -/
def CronSpec.read (spec : List Char) : Option CronSpec :=
  match fields spec with
  | [minute, hour, dom, month, dow] =>
    match CronField.read 0 59 minute, CronField.read 0 23 hour, CronField.read 1 31 dom,
      CronField.read 1 12 month, CronField.read 0 6 dow with
    | some minute, some hour, some dom, some month, some dow =>
      if dom = .any ∨ dow = .any then some ⟨minute, hour, dom, month, dow⟩ else none
    | _, _, _, _, _ => none
  | _ => none

def minuteSpan : Time := 60 * 10 ^ 9

def dayOf (k : Int) : Int := k / 1440

structure CronSpec.Matches (c : CronSpec) (k : Int) : Prop where
  minute : c.minute.Allows (k % 60)
  hour : c.hour.Allows (k % 1440 / 60)
  dom : c.dom.Allows (dayOfMonth (dayOf k))
  month : c.month.Allows (monthOf (dayOf k) % 12 + 1)
  dow : c.dow.Allows (weekday (dayOf k))

def CronSpec.Fires (c : CronSpec) (t : Time) : Prop :=
  ∃ k : Int, t = k * minuteSpan ∧ c.Matches k

theorem minuteSpan_pos : 0 < minuteSpan := by decide

@[grind =]
theorem CronSpec.fires_iff {c : CronSpec} {k : Int} : c.Fires (k * minuteSpan) ↔ c.Matches k := by
  constructor
  · rintro ⟨k', heq, hmatches⟩
    have hk : k = k' := Int.eq_of_mul_eq_mul_right minuteSpan_pos.ne' heq
    exact hk ▸ hmatches
  · intro hmatches
    exact ⟨k, rfl, hmatches⟩

/-- The cron library: which expressions `ParseStandard` accepts and when they fire, and
`Next`, all on the local clock. What is asked of it is that an expression with no descriptor has
five fields, that white space around an expression does not matter, that one of plain fields
fires at the minutes that all its fields allow, and that `Next` of such a one is the first of
them after its argument. -/
structure Cron where
  parse : List Char → Option (Time → Prop)
  next : List Char → Time → Option Time
  fewer : ∀ spec, '@' ∉ spec → (fields spec).length < 5 → parse spec = none
  trim : ∀ spec fires, parse spec = some fires → parse (trimSpace spec) = some fires
  plain : ∀ spec c, CronSpec.read spec = some c → parse spec = some c.Fires
  first : ∀ spec c t u, CronSpec.read spec = some c → c.month = .any →
    (next spec t = some u ↔ c.Fires u ∧ t < u ∧ ∀ v, c.Fires v → t < v → u ≤ v)

noncomputable def plainCron : Cron where
  parse spec := (CronSpec.read spec).map CronSpec.Fires
  next spec t :=
    haveI := Classical.propDecidable
    if h : ∃ c u, CronSpec.read spec = some c ∧ c.Fires u ∧ t < u ∧ ∀ v, c.Fires v → t < v → u ≤ v then
      some h.choose_spec.choose
    else none
  fewer spec _ hlen := by
    have hread : CronSpec.read spec = none := by
      unfold CronSpec.read
      split
      · rename_i hfields
        rw [hfields] at hlen
        cases hlen.ne rfl
      · rfl
    rw [hread, Option.map_none]
  trim spec fires h := by
    have hsame : CronSpec.read (trimSpace spec) = CronSpec.read spec := by
      rw [CronSpec.read, fields_trimSpace, ← CronSpec.read]
    rw [hsame, h]
  plain spec c h := by rw [h, Option.map_some]
  first spec c t u h _ := by
    constructor
    · intro hnext
      split at hnext
      · rename_i hleast
        obtain ⟨hread, hleast'⟩ := hleast.choose_spec.choose_spec
        cases hread.symm.trans h
        cases hnext
        exact hleast'
      · cases hnext
    · intro hu
      have hleast : ∃ c u, CronSpec.read spec = some c ∧ c.Fires u ∧ t < u ∧
          ∀ v, c.Fires v → t < v → u ≤ v := ⟨c, u, h, hu⟩
      rw [dif_pos hleast]
      obtain ⟨hread, hfires, hafter, hmin⟩ := hleast.choose_spec.choose_spec
      cases hread.symm.trans h
      exact congrArg some (Int.le_antisymm (hmin u hu.1 hu.2.1) (hu.2.2 _ hfires hafter))

theorem digit?_of_cronInt {field : List Char} {min max n : Nat} (h : cronInt field min max = some n) :
    field ≠ [] ∧ (∀ c ∈ field, (digit? c).isSome) ∧ min ≤ n ∧ n ≤ max := by
  unfold cronInt at h
  split at h
  · rename_i hgood
    cases h
    have hdigits := of_decide_eq_true hgood.1
    exact ⟨hdigits.1, hdigits.2, hgood.2⟩
  · cases h

theorem read_of_cronInt {field : List Char} {min max n : Nat} (h : cronInt field min max = some n) :
    CronField.read min max field = some (.oneOf [n]) := by
  obtain ⟨-, hdigits, -⟩ := digit?_of_cronInt h
  have hstar : field ≠ ['*'] := by
    rintro rfl
    cases hdigits '*' List.mem_cons_self
  have hcomma : ',' ∉ field := fun hmem => by cases hdigits ',' hmem
  rw [CronField.read, if_neg hstar, List.splitOn_eq_singleton hcomma, List.mapM_cons, h]
  rfl

theorem isWord_itoa {n : Nat} (h : n < 60) : IsWord (itoa n) := by
  have hall : ∀ n : Fin 60, IsWord (itoa (n : Nat)) := by decide +kernel
  exact hall ⟨n, h⟩

theorem cronInt_itoa {n min max : Nat} (h : n < 60) (hmin : min ≤ n) (hmax : n ≤ max) :
    cronInt (itoa n) min max = some n := by
  have hall : ∀ n : Fin 60, allDigits (itoa (n : Nat)) = true ∧ atoi (itoa (n : Nat)) = n := by
    decide +kernel
  obtain ⟨hdigits, hvalue⟩ := hall ⟨n, h⟩
  have hvalue' : atoi (itoa n) = n := hvalue
  rw [cronInt, hvalue', if_pos ⟨hdigits, hmin, hmax⟩]

theorem read_itoa {n min max : Nat} (h : n < 60) (hmin : min ≤ n) (hmax : n ≤ max) :
    CronField.read min max (itoa n) = some (.oneOf [n]) :=
  read_of_cronInt (cronInt_itoa h hmin hmax)

theorem isWord_star : IsWord ['*'] := by decide

theorem fields_five {a b c d e : List Char} (ha : IsWord a) (hb : IsWord b) (hc : IsWord c)
    (hd : IsWord d) (he : IsWord e) :
    fields (a ++ ' ' :: (b ++ ' ' :: (c ++ ' ' :: (d ++ ' ' :: e)))) = [a, b, c, d, e] := by
  rw [fields_cons ha, fields_cons hb, fields_cons hc, fields_cons hd, fields_word he]

theorem read_of_fields {spec minute hour dom dow : List Char} {fm fh fd fw : CronField}
    (hfields : fields spec = [minute, hour, dom, ['*'], dow])
    (rm : CronField.read 0 59 minute = some fm) (rh : CronField.read 0 23 hour = some fh)
    (rd : CronField.read 1 31 dom = some fd) (rw' : CronField.read 0 6 dow = some fw)
    (hany : fd = .any ∨ fw = .any) :
    CronSpec.read spec = some ⟨fm, fh, fd, .any, fw⟩ := by
  have hstar : CronField.read 1 12 ['*'] = some .any := rfl
  rw [CronSpec.read, hfields]
  dsimp only
  rw [rm, rh, rd, rw', hstar]
  exact if_pos hany

end ProxBack.Store
