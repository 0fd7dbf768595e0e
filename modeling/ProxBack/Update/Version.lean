import Mathlib
import ProxBack.Api.Atoi
import ProxBack.Lib.SemVer
import ProxBack.Lib.Text

/-! Which of two versions is newer: the order the updater goes by, and where it is the precedence of
semantic versions. -/
namespace ProxBack.Update
open Lib Text

def versionPart (part : List Char) : Option Int := (Api.atoi (.ofList part)).filter fun n => 0 ≤ n

def parseSemver (v : String) : Option (Int ×ₗ Int ×ₗ Int) :=
  let v := trimSpace v.toList
  let v := if v.head? = some 'v' then v.tail else v
  -- what comes after the numbers is cut off and not looked at
  let parts := (v.takeWhile fun c => c ≠ '-' ∧ c ≠ '+').splitOn '.'
  if 3 < parts.length then none
  else (parts.mapM versionPart).map fun out => toLex (out.getD 0 0, toLex (out.getD 1 0, out.getD 2 0))

def newer (current candidate : String) : Bool :=
  match parseSemver candidate, parseSemver current with
  | none, _ => false
  | some _, none => true
  | some cand, some cur =>
    if cand.1 ≠ cur.1 then cur.1 < cand.1
    else if cand.2.1 ≠ cur.2.1 then cur.2.1 < cand.2.1
    else if cand.2.2 ≠ cur.2.2 then cur.2.2 < cand.2.2
    else false

def versionDrift (serverVersion componentVersion : String) : Bool × Bool :=
  let cur := trimmed componentVersion
  (cur ≠ "" && cur = serverVersion, newer cur serverVersion)

def versionRank (v : String) : WithBot (Int ×ₗ Int ×ₗ Int) :=
  match parseSemver v with
  | none => ⊥
  | some core => core

theorem core_lt {a b : Int ×ₗ Int ×ₗ Int} : a < b ↔
    (if b.1 ≠ a.1 then decide (a.1 < b.1)
    else if b.2.1 ≠ a.2.1 then decide (a.2.1 < b.2.1)
    else if b.2.2 ≠ a.2.2 then decide (a.2.2 < b.2.2)
    else false) = true := by
  obtain ⟨a₁, a₂, a₃⟩ := a
  obtain ⟨b₁, b₂, b₃⟩ := b
  show toLex (a₁, toLex (a₂, a₃)) < toLex (b₁, toLex (b₂, b₃)) ↔ _
  rw [Prod.Lex.toLex_lt_toLex, Prod.Lex.toLex_lt_toLex]
  dsimp only
  by_cases h₁ : b₁ = a₁
  · subst h₁
    by_cases h₂ : b₂ = a₂
    · subst h₂
      by_cases h₃ : b₃ = a₃
      · subst h₃
        simp
      · simp [h₃]
    · simp [h₂]
      omega
  · simp [h₁]
    omega

@[simp] theorem newer_iff (current candidate : String) :
    newer current candidate = true ↔ versionRank current < versionRank candidate := by
  unfold newer versionRank
  cases parseSemver candidate with
  | none => simp
  | some cand =>
    cases parseSemver current with
    | none => simp
    | some cur =>
      dsimp only
      rw [WithBot.coe_lt_coe]
      exact core_lt.symm

/-- Whatever the texts are, no version is newer than itself, no two are newer than each other, and
being newer goes on through a third. -/
theorem newer_strict : (∀ a, newer a a = false) ∧
    (∀ a b, newer a b = true → newer b a = false) ∧
    ∀ a b c, newer a b = true → newer b c = true → newer a c = true := by
  refine ⟨fun a => ?_, fun a b h => ?_, fun a b c h h' => ?_⟩
  · exact Bool.eq_false_iff.mpr fun h => lt_irrefl _ ((newer_iff a a).mp h)
  · exact Bool.eq_false_iff.mpr fun h' => lt_asymm ((newer_iff a b).mp h) ((newer_iff b a).mp h')
  · exact (newer_iff a c).mpr (((newer_iff a b).mp h).trans ((newer_iff b c).mp h'))

@[grind =]
theorem isSpace_of_textChar {c : Char} (h : SemVer.isTextChar c = true) : isSpace c = false := by
  have hranges : (48 ≤ c.toNat ∧ c.toNat ≤ 57) ∨ (65 ≤ c.toNat ∧ c.toNat ≤ 90) ∨
      (97 ≤ c.toNat ∧ c.toNat ≤ 122) ∨ c.toNat = 45 ∨ c.toNat = 46 ∨ c.toNat = 43 := by
    have hcases : ((((c.isUpper ∨ c.isLower) ∨ c.isDigit) ∨ c = '-') ∨ c = '.') ∨ c = '+' := by
      rw [← decide_eq_true_iff (p := c = '-'), ← decide_eq_true_iff (p := c = '.'),
        ← decide_eq_true_iff (p := c = '+'), ← Bool.or_eq_true, ← Bool.or_eq_true, ← Bool.or_eq_true,
        ← Bool.or_eq_true, ← Bool.or_eq_true]
      exact h
    rcases hcases with ((((h | h) | h) | rfl) | rfl) | rfl
    · exact .inr (.inl (of_decide_eq_true h))
    · exact .inr (.inr (.inl ((Bool.and_eq_true_iff.mp h).imp of_decide_eq_true of_decide_eq_true)))
    · exact .inl ((Bool.and_eq_true_iff.mp h).imp of_decide_eq_true of_decide_eq_true)
    · decide
    · decide
    · decide
  refine decide_eq_false ?_
  simp only [List.mem_cons, List.not_mem_nil, or_false]
  omega

/-- All three numbers are ones that an `int` holds. -/
def Fits (v : SemVer) : Prop := v.major < 2 ^ 63 ∧ v.minor < 2 ^ 63 ∧ v.patch < 2 ^ 63

instance (v : SemVer) : Decidable (Fits v) := inferInstanceAs (Decidable (_ ∧ _))

theorem versionPart_digits (n : Nat) :
    versionPart (Nat.toDigits 10 n) = if n < 2 ^ 63 then some (n : Int) else none := by
  have htext : String.ofList (Nat.toDigits 10 n) = toString (n : Int) := rfl
  rw [versionPart, htext, Api.atoi_toString_eq, Option.filter_some]
  by_cases hn : n < 2 ^ 63
  · have hin : -2 ^ 63 ≤ (n : Int) ∧ (n : Int) < 2 ^ 63 := by omega
    rw [if_pos (decide_eq_true hin), Option.filter_some, if_pos (decide_eq_true n.cast_nonneg), if_pos hn]
  · have hout : ¬ (-2 ^ 63 ≤ (n : Int) ∧ (n : Int) < 2 ^ 63) := by omega
    rw [if_neg (by rw [decide_eq_false hout]; nofun), if_neg hn]
    rfl

def coreOf (v : SemVer) : Int ×ₗ Int ×ₗ Int :=
  toLex ((v.major : Int), toLex ((v.minor : Int), (v.patch : Int)))

theorem coreOf_lt {v w : SemVer} : coreOf v < coreOf w ↔ v.core < w.core := by
  simp only [coreOf, SemVer.core, Prod.Lex.toLex_lt_toLex, Nat.cast_lt, Nat.cast_inj]

@[simp] theorem parseSemver_text (v : SemVer) (letter : Bool) :
    parseSemver (v.text letter) = if Fits v then some (coreOf v) else none := by
  have htrim : trimSpace (v.text letter).toList = (v.text letter).toList :=
    trimSpace_of_forall fun c hc => isSpace_of_textChar (SemVer.mem_text hc)
  have hbare : (if (v.text letter).toList.head? = some 'v' then (v.text letter).toList.tail
      else (v.text letter).toList) = v.coreText ++ v.suffix := by
    rw [SemVer.text, String.toList_ofList]
    cases letter with
    | true => rfl
    | false =>
      -- a digit comes first
      have hhead : (v.coreText ++ v.suffix).head? ≠ some 'v' := by
        rw [List.head?_append_of_ne_nil _ v.coreText_ne_nil]
        intro hv
        rcases SemVer.mem_coreText (List.mem_of_mem_head? hv) with h | h <;> cases h
      exact if_neg hhead
  have hcut : (v.coreText ++ v.suffix).takeWhile (fun c => c ≠ '-' ∧ c ≠ '+') = v.coreText := by
    rw [List.takeWhile_append_of_pos]
    · cases hsuffix : v.suffix with
      | nil => exact List.append_nil _
      | cons c rest =>
        have hc : c = '-' ∨ c = '+' := SemVer.suffix_head c (by rw [hsuffix]; rfl)
        have hstop : ¬ (c ≠ '-' ∧ c ≠ '+') := by tauto
        rw [List.takeWhile_cons_of_neg (by rw [decide_eq_false hstop]; simp), List.append_nil]
    · intro c hc
      refine decide_eq_true ?_
      rcases SemVer.mem_coreText hc with rfl | hdigit
      · decide
      · constructor
        · rintro rfl
          cases hdigit
        · rintro rfl
          cases hdigit
  unfold parseSemver
  dsimp only
  have hthree : ¬ 3 < [Nat.toDigits 10 v.major, Nat.toDigits 10 v.minor, Nat.toDigits 10 v.patch].length :=
    Nat.lt_irrefl 3
  rw [htrim, hbare, hcut, SemVer.splitOn_coreText, if_neg hthree]
  simp only [List.mapM_cons, List.mapM_nil, versionPart_digits]
  by_cases hmajor : v.major < 2 ^ 63
  · by_cases hminor : v.minor < 2 ^ 63
    · by_cases hpatch : v.patch < 2 ^ 63
      · have hfits : Fits v := ⟨hmajor, hminor, hpatch⟩
        rw [if_pos hmajor, if_pos hminor, if_pos hpatch, if_pos hfits]
        rfl
      · have hno : ¬ Fits v := fun h => hpatch h.2.2
        rw [if_pos hmajor, if_pos hminor, if_neg hpatch, if_neg hno]
        rfl
    · have hno : ¬ Fits v := fun h => hminor h.2.1
      rw [if_pos hmajor, if_neg hminor, if_neg hno]
      rfl
  · have hno : ¬ Fits v := fun h => hmajor h.1
    rw [if_neg hmajor, if_neg hno]
    rfl

@[simp] theorem versionRank_text (v : SemVer) (letter : Bool) :
    versionRank (v.text letter) = if Fits v then (coreOf v : WithBot (Int ×ₗ Int ×ₗ Int)) else ⊥ := by
  rw [versionRank, parseSemver_text]
  by_cases h : Fits v
  · rw [if_pos h, if_pos h]
  · rw [if_neg h, if_neg h]

/-- The condition under which the updater goes by precedence: with numbers that an `int` holds,
versions of one core do not differ in their pre-releases to the candidate's advantage; a candidate
that does not fit is not newer, and one that fits is newer than a version that does not. -/
def Comparable (current candidate : SemVer) : Prop :=
  if Fits candidate then
    if Fits current then current.core = candidate.core → candidate.release ≤ current.release
    else current.precedence < candidate.precedence
  else candidate.precedence ≤ current.precedence

/-- A version is found newer where its precedence is higher, and only there, exactly under that
condition. -/
theorem newer_by_precedence (current candidate : SemVer) (letter letter' : Bool) :
    (newer (current.text letter) (candidate.text letter') = true ↔
      current.precedence < candidate.precedence) ↔ Comparable current candidate := by
  rw [newer_iff, versionRank_text, versionRank_text, Comparable]
  by_cases hcand : Fits candidate
  · rw [if_pos hcand, if_pos hcand]
    by_cases hcur : Fits current
    · rw [if_pos hcur, if_pos hcur, WithBot.coe_lt_coe, coreOf_lt, SemVer.precedence_lt, ← not_lt]
      constructor
      · intro h heq hlt
        exact lt_irrefl _ (heq ▸ h.mpr (.inr ⟨heq, hlt⟩))
      · exact fun h => ⟨.inl, fun hlt => hlt.resolve_right fun hsame => h hsame.1 hsame.2⟩
    · rw [if_neg hcur, if_neg hcur]
      exact iff_of_eq (by simp)
  · rw [if_neg hcand, if_neg hcand, ← not_lt]
    simp

def finalVersion : SemVer := ⟨1, 0, 0, [], []⟩

def rcVersion : SemVer :=
  ⟨1, 0, 0, [.inr ⟨['r', 'c'], by decide, 'r', by decide, by decide⟩, .inl 1], []⟩

theorem final_not_offered :
    rcVersion.text false = "1.0.0-rc.1" ∧ finalVersion.text false = "1.0.0" ∧
      rcVersion.precedence < finalVersion.precedence ∧ newer "1.0.0-rc.1" "1.0.0" = false ∧
      (versionDrift "1.0.0" "1.0.0-rc.1").2 = false := by
  have hbelow : rcVersion.precedence < finalVersion.precedence :=
    SemVer.precedence_lt.mpr (.inr ⟨rfl, SemVer.release_lt_final nofun rfl⟩)
  exact ⟨by decide +kernel, by decide +kernel, hbelow, by decide +kernel, by decide +kernel⟩

end ProxBack.Update
