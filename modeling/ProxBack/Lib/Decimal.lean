import Mathlib.Data.Char
import Mathlib.Data.List.Lex
import Mathlib.Data.List.Induction
import Mathlib.Tactic.Ring
import ProxBack.Lib.Lists

/-! Decimal numerals of a fixed width, whose order as texts is their order as numbers. -/
namespace ProxBack.Lib.Decimal

variable {α : Type} [LinearOrder α] {a b : List α}

theorem append_lt_of_length (hlen : a.length = b.length) (h : a < b) (s t : List α) : a ++ s < b ++ t := by
  induction a generalizing b with
  | nil =>
    rw [List.length_nil, eq_comm, List.length_eq_zero_iff] at hlen
    rw [hlen] at h
    cases h
  | cons x a ih =>
    cases b with
    | nil => cases hlen
    | cons y b =>
      rw [List.cons_append, List.cons_append, List.cons_lt_cons_iff]
      rcases List.cons_lt_cons_iff.mp h with hxy | ⟨rfl, hab⟩
      · exact .inl hxy
      · exact .inr ⟨rfl, ih (Nat.succ.inj hlen) hab⟩

@[grind =]
theorem append_lt_iff (h : ¬ a <+: b) (h' : ¬ b <+: a) (s t : List α) : a ++ s < b ++ t ↔ a < b := by
  induction a generalizing b with
  | nil => exact absurd List.nil_prefix h
  | cons x a ih =>
    cases b with
    | nil => exact absurd List.nil_prefix h'
    | cons y b =>
      rw [List.cons_append, List.cons_append, List.cons_lt_cons_iff, List.cons_lt_cons_iff]
      by_cases hxy : x = y
      · subst hxy
        rw [List.cons_prefix_cons] at h h'
        rw [ih (fun hab => h ⟨rfl, hab⟩) fun hba => h' ⟨rfl, hba⟩]
      · simp [hxy]

def digitChar (n : Nat) : Char := Char.ofNat (48 + n % 10)

def fixed : Nat → Nat → List Char
  | 0, _ => []
  | w + 1, n => fixed w (n / 10) ++ [digitChar n]

def digitValue (c : Char) : Nat := c.toNat - 48

def isDigit (c : Char) : Bool := '0' ≤ c ∧ c ≤ '9'

def value (s : List Char) : Nat := s.foldl (fun n c => n * 10 + digitValue c) 0

theorem digitChar_spec (n : Nat) :
    isDigit (digitChar n) = true ∧ digitValue (digitChar n) = n % 10 := by
  have hall : ∀ d : Fin 10, isDigit (Char.ofNat (48 + d)) = true ∧ digitValue (Char.ofNat (48 + d)) = d := by
    decide
  exact hall ⟨n % 10, Nat.mod_lt _ (by decide)⟩

theorem digitChar_lt {n m : Nat} (h : n % 10 < m % 10) : digitChar n < digitChar m := by
  have hall : ∀ d e : Fin 10, d < e → Char.ofNat (48 + d) < Char.ofNat (48 + e) := by
    decide
  exact hall ⟨n % 10, Nat.mod_lt _ (by decide)⟩ ⟨m % 10, Nat.mod_lt _ (by decide)⟩ h

@[simp] theorem length_fixed (w n : Nat) : (fixed w n).length = w := by
  induction w generalizing n with
  | zero => rfl
  | succ w ih => rw [fixed, List.length_append, ih, List.length_singleton]

theorem isDigit_of_mem_fixed {w n : Nat} : ∀ c ∈ fixed w n, isDigit c = true := by
  induction w generalizing n with
  | zero => nofun
  | succ w ih =>
    intro c hc
    rcases List.mem_append.mp hc with hc | hc
    · exact ih c hc
    · rw [List.mem_singleton.mp hc]
      exact (digitChar_spec n).1

theorem fixed_lt {w n m : Nat} (h : n < m) (hm : m < 10 ^ w) : fixed w n < fixed w m := by
  induction w generalizing n m with
  | zero =>
    rw [Nat.pow_zero] at hm
    omega
  | succ w ih =>
    rw [fixed, fixed]
    by_cases hhigh : n / 10 = m / 10
    · rw [hhigh]
      refine List.append_left_lt (List.cons_lt_cons_iff.mpr (.inl (digitChar_lt ?_)))
      omega
    · rw [Nat.pow_succ] at hm
      exact append_lt_of_length (by simp) (ih (by omega) (by omega)) _ _

@[grind =] theorem value_append (s t : List Char) : value (s ++ t) = value s * 10 ^ t.length + value t := by
  induction t using List.reverseRecOn with
  | nil => simp [value]
  | append_singleton t c ih =>
    have hlast : ∀ s : List Char, value (s ++ [c]) = value s * 10 + digitValue c := by
      intro s
      rw [value, List.foldl_append]
      rfl
    rw [← List.append_assoc, hlast, ih, hlast, List.length_append, List.length_singleton, Nat.pow_succ]
    ring

@[grind =] theorem value_fixed {w n : Nat} (h : n < 10 ^ w) : value (fixed w n) = n := by
  induction w generalizing n with
  | zero =>
    rw [Nat.pow_zero] at h
    rw [Nat.lt_one_iff.mp h]
    rfl
  | succ w ih =>
    have hone : value [digitChar n] = n % 10 := by
      have hdigit := (digitChar_spec n).2
      simpa [value] using hdigit
    rw [Nat.pow_succ] at h
    rw [fixed, value_append, ih (by omega), hone, List.length_singleton]
    omega

theorem fixed_append_lt {w n m : Nat} {s t : List Char} (hm : m < 10 ^ w) (h : n < m ∨ n = m ∧ s < t) :
    fixed w n ++ s < fixed w m ++ t := by
  rcases h with h | ⟨rfl, h⟩
  · exact append_lt_of_length (by simp) (fixed_lt h hm) _ _
  · exact List.append_left_lt h

def numeral (n : Nat) : List Char := if n < 10 then [digitChar n] else numeral (n / 10) ++ [digitChar n]

theorem numeral_ne_nil (n : Nat) : numeral n ≠ [] := by
  rw [numeral]
  split
  · exact List.cons_ne_nil _ _
  · exact List.append_ne_nil_of_right_ne_nil _ (List.cons_ne_nil _ _)

theorem isDigit_of_mem_numeral {n : Nat} {c : Char} (h : c ∈ numeral n) : isDigit c = true := by
  induction n using Nat.strong_induction_on with
  | _ n ih =>
    rw [numeral] at h
    split at h
    · rw [List.mem_singleton.mp h]
      exact (digitChar_spec n).1
    · rcases List.mem_append.mp h with h | h
      · exact ih (n / 10) (by omega) h
      · rw [List.mem_singleton.mp h]
        exact (digitChar_spec n).1

@[simp] theorem value_numeral (n : Nat) : value (numeral n) = n := by
  have hone : ∀ n, value [digitChar n] = n % 10 := by
    intro n
    have hdigit := (digitChar_spec n).2
    simpa [value] using hdigit
  induction n using Nat.strong_induction_on with
  | _ n ih =>
    rw [numeral]
    split
    · rw [hone]
      omega
    · rw [value_append, ih (n / 10) (by omega), hone, List.length_singleton]
      omega

theorem numeral_head {n : Nat} (h : n ≠ 0) : ∃ c digits, numeral n = c :: digits ∧ c ≠ '0' := by
  induction n using Nat.strong_induction_on with
  | _ n ih =>
    rw [numeral]
    split
    · rename_i hsmall
      refine ⟨digitChar n, [], rfl, ?_⟩
      have hall : ∀ d : Fin 10, d.val ≠ 0 → digitChar d.val ≠ '0' := by decide
      exact hall ⟨n, hsmall⟩ h
    · obtain ⟨c, digits, heq, hne⟩ := ih (n / 10) (by omega) (by omega)
      exact ⟨c, digits ++ [digitChar n], by rw [heq, List.cons_append], hne⟩

end ProxBack.Lib.Decimal
