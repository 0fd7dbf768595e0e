import Mathlib.Data.List.Basic
import ProxBack.Lib.Lists

/-! Which texts Go's `url.Parse` accepts, with the scheme and the host it finds in them. -/
namespace ProxBack.Lib.Url

structure URL where
  scheme : List Char
  host : List Char
deriving DecidableEq, Repr

inductive Encoding where
  | host
  | zone
  | other
deriving DecidableEq, Repr

def isLetter (c : Char) : Bool := ('a' ≤ c ∧ c ≤ 'z') ∨ ('A' ≤ c ∧ c ≤ 'Z')

def isDigit (c : Char) : Bool := '0' ≤ c ∧ c ≤ '9'

def isControl (c : Char) : Bool := c < ' ' ∨ c.toNat = 0x7f

def isHex (c : Char) : Bool := isDigit c ∨ ('a' ≤ c ∧ c ≤ 'f') ∨ ('A' ≤ c ∧ c ≤ 'F')

def unhex (c : Char) : Nat :=
  if isDigit c then c.toNat - '0'.toNat
  else if 'a' ≤ c then c.toNat - 'a'.toNat + 10
  else c.toNat - 'A'.toNat + 10

/-- `shouldEscape` lets the character of a host be. -/
def hostChar (c : Char) : Bool :=
  isLetter c || isDigit c || c ∈ ['!', '$', '&', '\'', '(', ')', '*', '+', ',', ';', '=', ':', '[', ']',
    '<', '>', '"', '-', '_', '.', '~']

def escapable (mode : Encoding) (a b : Char) : Bool :=
  match mode with
  | .host => 8 ≤ unhex a ∨ (a = '2' ∧ b = '5')
  | .zone =>
    let v := 16 * unhex a + unhex b
    (a = '2' ∧ b = '5') ∨ v = 0x20 ∨ (v < 0x80 ∧ hostChar (Char.ofNat v))
  | .other => true

/-- `unescape` does not answer an error. -/
def unescapes (mode : Encoding) : List Char → Bool
  | [] => true
  | '%' :: a :: b :: s => isHex a && isHex b && escapable mode a b && unescapes mode s
  | '%' :: _ => false
  | c :: s => (mode = .other || 0x80 ≤ c.toNat || hostChar c) && unescapes mode s

def getScheme (s : List Char) : Option (List Char × List Char) :=
  match s with
  | [] => some ([], [])
  | c :: _ =>
    if c = ':' then none
    else if isLetter c then
      let schemeChar := fun c => isLetter c || isDigit c || c ∈ ['+', '-', '.']
      match s.dropWhile schemeChar with
      | ':' :: rest => some (s.takeWhile schemeChar, rest)
      | _ => some ([], s)
    else some ([], s)

def validOptionalPort : List Char → Bool
  | [] => true
  | c :: s => c = ':' && s.all isDigit

def validUserinfo (s : List Char) : Bool :=
  s.all fun c => isLetter c || isDigit c || c ∈ ['-', '.', '_', ':', '~', '!', '$', '&', '\'', '(', ')',
    '*', '+', ',', ';', '=', '%', '@']

def octet (s : List Char) : Bool :=
  s ≠ [] && s.all isDigit && s.length ≤ 3 && (s.length = 1 || s.head? ≠ some '0') &&
    s.foldl (fun n c => 10 * n + unhex c) 0 ≤ 255

/-- How many groups of sixteen bits the parts of an address come to; the last may be dotted. -/
def groups : List (List Char) → Option Nat
  | [] => some 0
  | [s] =>
    if s ≠ [] ∧ s.length ≤ 4 ∧ s.all isHex then some 1
    else if (s.splitOn '.').length = 4 ∧ (s.splitOn '.').all octet then some 2
    else none
  | s :: rest => if s ≠ [] ∧ s.length ≤ 4 ∧ s.all isHex then (groups rest).map (· + 1) else none

def cutColons : List Char → Option (List Char × List Char)
  | ':' :: ':' :: s => some ([], s)
  | c :: s => (cutColons s).map fun out => (c :: out.1, out.2)
  | [] => none

def partsOf (s : List Char) : List (List Char) := if s = [] then [] else s.splitOn ':'

def isIPv6 (s : List Char) : Bool :=
  match cutColons s with
  | none => groups (partsOf s) = some 8
  | some (l, r) =>
    -- a dotted part ends the address
    '.' ∉ l ∧ ∃ m ∈ groups (partsOf l), ∃ n ∈ groups (partsOf r), m + n ≤ 7

def cutZone : List Char → Option (List Char × List Char)
  | '%' :: '2' :: '5' :: s => some ([], s)
  | c :: s => (cutZone s).map fun out => (c :: out.1, out.2)
  | [] => none

def validLiteral (name : List Char) : Bool :=
  match cutZone name with
  | none => unescapes .host name && isIPv6 name
  | some (addr, zone) => unescapes .host addr && unescapes .zone zone && zone ≠ [] && isIPv6 addr

/-- `parseHost` does not answer an error. -/
def parseHost (host : List Char) : Bool :=
  if '[' ∈ host then
    match host with
    | '[' :: rest =>
      let name := (rest.reverse.dropWhile (· ≠ ']')).tail.reverse
      '[' ∉ rest && ']' ∈ rest && validOptionalPort (rest.reverse.takeWhile (· ≠ ']')).reverse &&
        validLiteral name
    | _ => false
  else validOptionalPort (host.dropWhile (· ≠ ':')) && unescapes .host host

def parseAuthority (authority : List Char) : Option (List Char) :=
  let host := (authority.reverse.takeWhile (· ≠ '@')).reverse
  let userinfo := (authority.reverse.dropWhile (· ≠ '@')).tail.reverse
  if parseHost host && validUserinfo userinfo && unescapes .other userinfo then some host else none

/-- `parse`, of a text without a fragment. -/
def parseRest (s : List Char) : Option URL :=
  if s.any isControl then none
  else if s = ['*'] then some ⟨[], []⟩
  else
    match getScheme s with
    | none => none
    | some (scheme, rest) =>
      let scheme := scheme.map Char.toLower
      let rest := rest.takeWhile (· ≠ '?')
      match rest with
      | '/' :: '/' :: tail =>
        if scheme = [] ∧ tail.head? = some '/' then
          if unescapes .other rest then some ⟨[], []⟩ else none
        else
          match parseAuthority (tail.takeWhile (· ≠ '/')) with
          | none => none
          | some host =>
            if unescapes .other (tail.dropWhile (· ≠ '/')) then some ⟨scheme, host⟩ else none
      | '/' :: _ => if unescapes .other rest then some ⟨scheme, []⟩ else none
      | _ =>
        if scheme ≠ [] then some ⟨scheme, []⟩
        else if ':' ∈ rest.takeWhile (· ≠ '/') then none
        else if unescapes .other rest then some ⟨[], []⟩
        else none

def parse (s : String) : Option URL :=
  let url := parseRest (s.toList.takeWhile (· ≠ '#'))
  if unescapes .other (s.toList.dropWhile (· ≠ '#')).tail then url else none

theorem getScheme_letter {s rest scheme : List Char} (h : getScheme s = some (scheme, rest))
    (hne : scheme ≠ []) : ∃ c ∈ s.head?, isLetter c = true := by
  unfold getScheme at h
  split at h
  · cases h
    exact absurd rfl hne
  · rename_i c t
    split at h
    · cases h
    · split at h
      · rename_i hletter
        exact ⟨c, rfl, hletter⟩
      · cases h
        exact absurd rfl hne

theorem parseRest_letter {s : List Char} {u : URL} (h : parseRest s = some u) (hne : u.scheme ≠ []) :
    ∃ c ∈ s.head?, isLetter c = true := by
  unfold parseRest at h
  split at h
  · cases h
  · split at h
    · cases h
      exact absurd rfl hne
    · split at h
      · cases h
      · rename_i scheme rest hscheme
        refine getScheme_letter hscheme ?_
        rintro rfl
        dsimp only [List.map_nil] at h
        apply hne
        split at h
        · split at h
          · split at h
            · cases h
              rfl
            · cases h
          · split at h
            · cases h
            · split at h
              · cases h
                rfl
              · cases h
        · split at h
          · cases h
            rfl
          · cases h
        · rw [if_neg (fun hno => hno rfl)] at h
          split at h
          · cases h
          · split at h
            · cases h
              rfl
            · cases h

theorem parse_letter {s : String} {u : URL} (h : parse s = some u) (hne : u.scheme ≠ []) :
    ∃ c ∈ s.toList.head?, isLetter c = true := by
  unfold parse at h
  dsimp only at h
  split at h
  · obtain ⟨c, hc, hletter⟩ := parseRest_letter h hne
    refine ⟨c, ?_, hletter⟩
    cases hs : s.toList with
    | nil =>
      rw [hs] at hc
      cases hc
    | cons d t =>
      rw [hs, List.takeWhile_cons] at hc
      split at hc
      · exact hc
      · cases hc
  · cases h

end ProxBack.Lib.Url
