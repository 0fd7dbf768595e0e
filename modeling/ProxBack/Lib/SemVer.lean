import Mathlib.Data.Char
import Mathlib.Data.List.Lex
import Mathlib.Data.Prod.Lex
import Mathlib.Data.Sum.Order
import Mathlib.Order.WithBot
import ProxBack.Lib.Lists

/-! Semantic versions: what their texts are, and their precedence as a linear order. -/
namespace ProxBack.Lib

def isIdentChar (c : Char) : Bool := c.isAlphanum || c = '-'

structure Label where
  chars : List Char
  valid : ∀ c ∈ chars, isIdentChar c = true
  other : ∃ c ∈ chars, c.isDigit = false

structure BuildIdent where
  chars : List Char
  ne_nil : chars ≠ []
  valid : ∀ c ∈ chars, isIdentChar c = true

structure SemVer where
  major : Nat
  minor : Nat
  patch : Nat
  pre : List (Nat ⊕ Label)
  build : List BuildIdent

namespace SemVer

def identText : Nat ⊕ Label → List Char
  | .inl n => Nat.toDigits 10 n
  | .inr l => l.chars

def dotted (parts : List (List Char)) : List Char := ['.'].intercalate parts

def coreText (v : SemVer) : List Char :=
  dotted [Nat.toDigits 10 v.major, Nat.toDigits 10 v.minor, Nat.toDigits 10 v.patch]

def suffix (v : SemVer) : List Char :=
  (if v.pre = [] then [] else '-' :: dotted (v.pre.map identText)) ++
    if v.build = [] then [] else '+' :: dotted (v.build.map BuildIdent.chars)

/-- The version as it is written, with a `v` before it or without. -/
def text (v : SemVer) (letter : Bool) : String :=
  .ofList ((if letter then ['v'] else []) ++ (v.coreText ++ v.suffix))

def isTextChar (c : Char) : Bool := isIdentChar c || c = '.' || c = '+'

theorem mem_dotted {parts : List (List Char)} {c : Char} (h : c ∈ dotted parts) :
    c = '.' ∨ ∃ part ∈ parts, c ∈ part := by
  induction parts with
  | nil => cases h
  | cons part parts ih =>
    cases parts with
    | nil => exact .inr ⟨part, List.mem_cons_self, by simpa [dotted] using h⟩
    | cons next parts =>
      rw [dotted, List.intercalate_cons_cons, ← dotted, List.append_assoc] at h
      rcases List.mem_append.mp h with hc | hc
      · exact .inr ⟨part, List.mem_cons_self, hc⟩
      · rcases List.mem_append.mp hc with hc | hc
        · exact .inl (List.mem_singleton.mp hc)
        · exact (ih hc).imp_right fun ⟨p, hp, hin⟩ => ⟨p, List.mem_cons_of_mem part hp, hin⟩

theorem isDigit_of_mem_digits {n : Nat} {c : Char} (h : c ∈ Nat.toDigits 10 n) : c.isDigit = true :=
  Nat.isDigit_of_mem_toDigits (by decide) (by decide) h

@[grind =]
theorem isIdentChar_of_digit {c : Char} (h : c.isDigit = true) : isIdentChar c = true := by
  rw [isIdentChar, Char.isAlphanum, h]
  simp

theorem mem_coreText {v : SemVer} {c : Char} (h : c ∈ v.coreText) : c = '.' ∨ c.isDigit = true := by
  refine (mem_dotted h).imp_right ?_
  rintro ⟨part, hpart, hc⟩
  simp only [List.mem_cons, List.not_mem_nil, or_false] at hpart
  rcases hpart with rfl | rfl | rfl <;> exact isDigit_of_mem_digits hc

theorem coreText_ne_nil (v : SemVer) : v.coreText ≠ [] := by
  rw [coreText, dotted, List.intercalate_cons_cons, List.append_assoc]
  exact List.append_ne_nil_of_right_ne_nil _ nofun

theorem mem_suffix {v : SemVer} {c : Char} (h : c ∈ v.suffix) : isTextChar c = true := by
  have hdotted : ∀ parts : List (List Char), (∀ part ∈ parts, ∀ d ∈ part, isIdentChar d = true) →
      ∀ d ∈ dotted parts, isTextChar d = true := by
    intro parts hparts d hd
    rcases mem_dotted hd with rfl | ⟨part, hpart, hin⟩
    · rfl
    · rw [isTextChar, hparts part hpart d hin]
      rfl
  rcases List.mem_append.mp h with h | h
  · split at h
    · cases h
    · rcases List.mem_cons.mp h with rfl | h
      · rfl
      · refine hdotted _ ?_ c h
        intro part hpart d hd
        obtain ⟨ident, -, rfl⟩ := List.mem_map.mp hpart
        cases ident with
        | inl n => exact isIdentChar_of_digit (isDigit_of_mem_digits hd)
        | inr l => exact l.valid d hd
  · split at h
    · cases h
    · rcases List.mem_cons.mp h with rfl | h
      · rfl
      · refine hdotted _ ?_ c h
        intro part hpart d hd
        obtain ⟨ident, -, rfl⟩ := List.mem_map.mp hpart
        exact ident.valid d hd

theorem mem_text {v : SemVer} {letter : Bool} {c : Char} (h : c ∈ (v.text letter).toList) :
    isTextChar c = true := by
  rw [text, String.toList_ofList] at h
  rcases List.mem_append.mp h with h | h
  · split at h
    · rw [List.mem_singleton.mp h]
      rfl
    · cases h
  · rcases List.mem_append.mp h with h | h
    · rcases mem_coreText h with rfl | hdigit
      · rfl
      · rw [isTextChar, isIdentChar_of_digit hdigit]
        rfl
    · exact mem_suffix h

theorem suffix_head {v : SemVer} : ∀ c ∈ v.suffix.head?, c = '-' ∨ c = '+' := by
  intro c hc
  rw [suffix] at hc
  by_cases hpre : v.pre = []
  · rw [if_pos hpre, List.nil_append] at hc
    split at hc
    · cases hc
    · cases hc
      exact .inr rfl
  · rw [if_neg hpre] at hc
    cases hc
    exact .inl rfl

@[simp] theorem splitOn_coreText (v : SemVer) : v.coreText.splitOn '.' =
    [Nat.toDigits 10 v.major, Nat.toDigits 10 v.minor, Nat.toDigits 10 v.patch] := by
  refine List.splitOn_intercalate '.' ?_ nofun
  intro part hpart hdot
  have hdigit : ('.' : Char).isDigit = true := by
    simp only [List.mem_cons, List.not_mem_nil, or_false] at hpart
    rcases hpart with rfl | rfl | rfl <;> exact isDigit_of_mem_digits hdot
  revert hdigit
  decide

-- Precedence: numbers come before other identifiers, a shorter list before a longer one that
-- begins with it, and a pre-release before the version itself. Build metadata does not count.
def identKey : Nat ⊕ Label → Nat ⊕ₗ List Char
  | .inl n => toLex (.inl n)
  | .inr l => toLex (.inr l.chars)

def core (v : SemVer) : Nat ×ₗ Nat ×ₗ Nat := toLex (v.major, toLex (v.minor, v.patch))

def release (v : SemVer) : WithTop (List (Nat ⊕ₗ List Char)) :=
  if v.pre = [] then ⊤ else ((v.pre.map identKey : List (Nat ⊕ₗ List Char)) : WithTop _)

def precedence (v : SemVer) : (Nat ×ₗ Nat ×ₗ Nat) ×ₗ WithTop (List (Nat ⊕ₗ List Char)) :=
  toLex (v.core, v.release)

theorem precedence_lt {v w : SemVer} :
    v.precedence < w.precedence ↔ v.core < w.core ∨ v.core = w.core ∧ v.release < w.release :=
  Prod.Lex.toLex_lt_toLex

theorem release_lt_final {v w : SemVer} (hv : v.pre ≠ []) (hw : w.pre = []) :
    v.release < w.release := by
  rw [release, release, if_neg hv, if_pos hw]
  exact WithTop.coe_lt_top _

end SemVer

end ProxBack.Lib
