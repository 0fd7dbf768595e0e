import Mathlib.Data.Option.Basic
import Mathlib.Data.Nat.Digits.Defs

/-! Whole numbers in the texts that the server is given, and the texts it writes itself. -/
namespace ProxBack.Api

def parseDigits : List Char → Nat → Option Nat
  | [], n => some n
  | c :: rest, n => if c.isDigit then parseDigits rest (10 * n + (c.toNat - 48)) else none

/-- `strconv.Atoi`: an optional sign and at least one digit, in the range of an `int`. -/
def atoi (s : String) : Option Int :=
  let signed : Option Int := match s.toList with
    | [] | ['-'] | ['+'] => none
    | '-' :: digits => (parseDigits digits 0).map fun n => -(n : Int)
    | '+' :: digits => (parseDigits digits 0).map fun n => (n : Int)
    | digits => (parseDigits digits 0).map fun n => (n : Int)
  signed.filter fun n => -2 ^ 63 ≤ n ∧ n < 2 ^ 63

@[grind =] theorem parseDigits_eq {l : List Char} (h : ∀ c ∈ l, c.isDigit = true) (n : Nat) :
    parseDigits l n = some (Nat.ofDigitChars 10 l n) := by
  induction l generalizing n with
  | nil => rfl
  | cons c l ih =>
    rw [parseDigits, if_pos (h c List.mem_cons_self), ih fun d hd => h d (List.mem_cons_of_mem c hd),
      Nat.ofDigitChars_cons]
    rfl

@[simp] theorem parseDigits_toDigits (n : Nat) : parseDigits (Nat.toDigits 10 n) 0 = some n := by
  rw [parseDigits_eq (fun c hc => Nat.isDigit_of_mem_toDigits (by decide) (by decide) hc),
    Nat.ofDigitChars_ten_toDigits]

theorem toDigits_cons (n : Nat) : ∃ c rest, Nat.toDigits 10 n = c :: rest ∧ c ≠ '-' ∧ c ≠ '+' := by
  obtain ⟨c, rest, hcons⟩ := List.exists_cons_of_ne_nil (Nat.toDigits_ne_nil (n := n) (b := 10))
  have hdigit : c.isDigit = true :=
    Nat.isDigit_of_mem_toDigits (by decide) (by decide) (hcons ▸ List.mem_cons_self : c ∈ Nat.toDigits 10 n)
  refine ⟨c, rest, hcons, ?_, ?_⟩ <;>
  · rintro rfl
    revert hdigit
    decide

theorem atoi_toString_eq (n : Int) :
    atoi (toString n) = (some n).filter fun n => -2 ^ 63 ≤ n ∧ n < 2 ^ 63 := by
  unfold atoi
  dsimp only
  congr 1
  cases n with
  | ofNat m =>
    have htext : (toString (Int.ofNat m)).toList = Nat.toDigits 10 m := Nat.toList_repr
    have hparse := parseDigits_toDigits m
    obtain ⟨c, rest, hcons, hminus, hplus⟩ := toDigits_cons m
    rw [hcons] at htext hparse
    rw [htext]
    -- a digit is no sign
    split
    · rename_i heq
      cases heq
    · rename_i heq
      exact absurd (List.cons.inj heq).1 hminus
    · rename_i heq
      exact absurd (List.cons.inj heq).1 hplus
    · rename_i heq
      exact absurd (List.cons.inj heq).1 hminus
    · rename_i heq
      exact absurd (List.cons.inj heq).1 hplus
    · rw [hparse]
      rfl
  | negSucc m =>
    have htext : (toString (Int.negSucc m)).toList = '-' :: Nat.toDigits 10 (m + 1) := by
      show ("-" ++ Nat.repr (m + 1)).toList = _
      rw [String.toList_append, Nat.toList_repr]
      rfl
    have hparse := parseDigits_toDigits (m + 1)
    obtain ⟨c, rest, hcons, -, -⟩ := toDigits_cons (m + 1)
    rw [hcons] at htext hparse
    rw [htext]
    show (parseDigits (c :: rest) 0).map (fun n => -(n : Int)) = _
    rw [hparse]
    rfl

end ProxBack.Api
