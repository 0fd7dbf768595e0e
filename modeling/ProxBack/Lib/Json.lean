import ProxBack.Lib.Decimal

/-! JSON: its values, the text a strict reader takes for one, and the compact text that is written. -/
namespace ProxBack.Lib

inductive Json where
  | null
  | bool (b : Bool)
  | num (literal : List Char)
  | str (s : List Char)
  | arr (elems : List Json)
  | obj (members : List (List Char × Json))

namespace Json

def shortEscapes : List (Char × Char) :=
  [('"', '"'), ('\\', '\\'), ('b', '\x08'), ('f', '\x0c'), ('n', '\n'), ('r', '\r'), ('t', '\t')]

def unescape (e : Char) : Option Char :=
  if e = '/' then some '/' else (shortEscapes.find? fun p => p.1 = e).map Prod.snd

def hexDigits : List Char := ['0', '1', '2', '3', '4', '5', '6', '7', '8', '9', 'a', 'b', 'c', 'd', 'e', 'f']

def hexDigit (n : Nat) : Char := hexDigits.getD (n % 16) '0'

def hexValue (c : Char) : Option Nat :=
  if '0' ≤ c ∧ c ≤ '9' then some (c.toNat - 48)
  else if 'a' ≤ c ∧ c ≤ 'f' then some (c.toNat - 87)
  else if 'A' ≤ c ∧ c ≤ 'F' then some (c.toNat - 55)
  else none

def hex4 (a b c d : Char) : Option Nat := do
  let a ← hexValue a
  let b ← hexValue b
  let c ← hexValue c
  let d ← hexValue d
  return ((a * 16 + b) * 16 + c) * 16 + d

inductive Piece where
  | plain (c : Char)
  | unit (n : Nat)

def readPieces : List Char → Option (List Piece × List Char)
  | [] => none
  | c :: rest =>
    if c = '"' then some ([], rest)
    else if c = '\\' then
      match rest with
      | [] => none
      | e :: rest =>
        if e = 'u' then
          match rest with
          | a :: b :: c :: d :: rest =>
            match hex4 a b c d, readPieces rest with
            | some n, some (pieces, rest) => some (.unit n :: pieces, rest)
            | _, _ => none
          | _ => none
        else
          match unescape e, readPieces rest with
          | some c, some (pieces, rest) => some (.plain c :: pieces, rest)
          | _, _ => none
    else if c.toNat < 0x20 then none
    else
      match readPieces rest with
      | some (pieces, rest) => some (.plain c :: pieces, rest)
      | none => none

def isHigh (n : Nat) : Bool := 0xD800 ≤ n ∧ n < 0xDC00

def isLow (n : Nat) : Bool := 0xDC00 ≤ n ∧ n < 0xE000

def joinPieces : List Piece → List Char
  | [] => []
  | .plain c :: pieces => c :: joinPieces pieces
  | .unit n :: pieces =>
    if isHigh n || isLow n then
      match pieces with
      | .unit low :: rest =>
        if isHigh n && isLow low then
          Char.ofNat (0x10000 + (n - 0xD800) * 0x400 + (low - 0xDC00)) :: joinPieces rest
        else '\uFFFD' :: joinPieces (.unit low :: rest)
      | pieces => '\uFFFD' :: joinPieces pieces
    else Char.ofNat n :: joinPieces pieces

def readString (s : List Char) : Option (List Char × List Char) :=
  (readPieces s).map fun (pieces, rest) => (joinPieces pieces, rest)

def readDigits (s : List Char) : Option (List Char × List Char) :=
  if s.takeWhile Decimal.isDigit = [] then none
  else some (s.takeWhile Decimal.isDigit, s.dropWhile Decimal.isDigit)

def readWhole : List Char → Option (List Char × List Char)
  | '0' :: rest => some (['0'], rest)
  | s => readDigits s

def readFraction : List Char → Option (List Char × List Char)
  | '.' :: rest => (readDigits rest).map fun (digits, rest) => ('.' :: digits, rest)
  | s => some ([], s)

def readSign : List Char → List Char × List Char
  | c :: rest => if c = '+' ∨ c = '-' then ([c], rest) else ([], c :: rest)
  | [] => ([], [])

def readExponent : List Char → Option (List Char × List Char)
  | c :: rest =>
    if c = 'e' ∨ c = 'E' then
      (readDigits (readSign rest).2).map fun (digits, rest') => (c :: (readSign rest).1 ++ digits, rest')
    else some ([], c :: rest)
  | [] => some ([], [])

def readUnsigned (s : List Char) : Option (List Char × List Char) :=
  match readWhole s with
  | none => none
  | some (whole, s) =>
    match readFraction s with
    | none => none
    | some (fraction, s) => (readExponent s).map fun (exponent, s) => (whole ++ fraction ++ exponent, s)

def readNumber : List Char → Option (List Char × List Char)
  | '-' :: rest => (readUnsigned rest).map fun (literal, rest) => ('-' :: literal, rest)
  | s => readUnsigned s

def skipSpace (s : List Char) : List Char := s.dropWhile fun c => c ∈ [' ', '\t', '\r', '\n']

def afterWord (word s : List Char) : Option (List Char) := if word.isPrefixOf s then some (s.drop word.length) else none

def after (c : Char) (s : List Char) : Option (List Char) := afterWord [c] (skipSpace s)

mutual

/-- A value nested at most `depth` deep; `fuel` is more than any text of its length needs. -/
def readValue (fuel depth : Nat) (s : List Char) : Option (Json × List Char) :=
  match fuel with
  | 0 => none
  | fuel + 1 =>
    match skipSpace s with
    | [] => none
    | c :: rest =>
      if c = '"' then (readString rest).map fun (t, rest) => (.str t, rest)
      else if c = '[' then
        match depth, after ']' rest with
        | 0, _ => none
        | _ + 1, some rest => some (.arr [], rest)
        | depth + 1, none => (readElems fuel depth rest).map fun (elems, rest) => (.arr elems, rest)
      else if c = '{' then
        match depth, after '}' rest with
        | 0, _ => none
        | _ + 1, some rest => some (.obj [], rest)
        | depth + 1, none => (readMembers fuel depth rest).map fun (members, rest) => (.obj members, rest)
      else if c = 'n' then (afterWord ['u', 'l', 'l'] rest).map fun rest => (.null, rest)
      else if c = 't' then (afterWord ['r', 'u', 'e'] rest).map fun rest => (.bool true, rest)
      else if c = 'f' then (afterWord ['a', 'l', 's', 'e'] rest).map fun rest => (.bool false, rest)
      else (readNumber (c :: rest)).map fun (literal, rest) => (.num literal, rest)

def readElems (fuel depth : Nat) (s : List Char) : Option (List Json × List Char) :=
  match fuel with
  | 0 => none
  | fuel + 1 =>
    match readValue fuel depth s with
    | none => none
    | some (value, rest) =>
      match after ',' rest with
      | some rest => (readElems fuel depth rest).map fun (elems, rest) => (value :: elems, rest)
      | none => (after ']' rest).map fun rest => ([value], rest)

def readMembers (fuel depth : Nat) (s : List Char) : Option (List (List Char × Json) × List Char) :=
  match fuel with
  | 0 => none
  | fuel + 1 =>
    match after '"' s >>= readString with
    | none => none
    | some (key, rest) =>
      match after ':' rest >>= readValue fuel depth with
      | none => none
      | some (value, rest) =>
        match after ',' rest with
        | some rest => (readMembers fuel depth rest).map fun (members, rest) => ((key, value) :: members, rest)
        | none => (after '}' rest).map fun rest => ([(key, value)], rest)

end

def maxNestingDepth : Nat := 10000

def read (s : List Char) : Option Json :=
  match readValue (2 * s.length + 2) maxNestingDepth s with
  | some (value, rest) => if skipSpace rest = [] then some value else none
  | none => none

def escapeUnit (n : Nat) : List Char :=
  ['\\', 'u', hexDigit (n / 4096), hexDigit (n / 256), hexDigit (n / 16), hexDigit n]

/-- Characters that are written as a unit, though a reader would take most of them as they are. -/
def isEscaped (c : Char) : Bool := c.toNat < 0x20 ∨ c ∈ ['<', '>', '&', '\u2028', '\u2029']

def escapeChar (c : Char) : List Char :=
  match shortEscapes.find? fun p => p.2 = c with
  | some p => ['\\', p.1]
  | none => if isEscaped c then escapeUnit c.toNat else [c]

def quote (s : List Char) : List Char := '"' :: s.flatMap escapeChar ++ ['"']

mutual

def print : Json → List Char
  | .null => ['n', 'u', 'l', 'l']
  | .bool true => ['t', 'r', 'u', 'e']
  | .bool false => ['f', 'a', 'l', 's', 'e']
  | .num literal => literal
  | .str s => quote s
  | .arr elems => '[' :: printElems elems ++ [']']
  | .obj members => '{' :: printMembers members ++ ['}']

def printElems : List Json → List Char
  | [] => []
  | value :: rest => print value ++ printMoreElems rest

def printMoreElems : List Json → List Char
  | [] => []
  | value :: rest => ',' :: print value ++ printMoreElems rest

def printMembers : List (List Char × Json) → List Char
  | [] => []
  | (key, value) :: rest => quote key ++ ':' :: print value ++ printMoreMembers rest

def printMoreMembers : List (List Char × Json) → List Char
  | [] => []
  | (key, value) :: rest => ',' :: quote key ++ ':' :: print value ++ printMoreMembers rest

end

@[simp] theorem hexValue_hexDigit (n : Nat) : hexValue (hexDigit n) = some (n % 16) := by
  have hall : ∀ d : Fin 16, hexValue (hexDigits.getD d '0') = some d.val := by decide
  exact hall ⟨n % 16, Nat.mod_lt _ (by decide)⟩

@[grind =] theorem hex4_hexDigit {n : Nat} (h : n < 65536) :
    hex4 (hexDigit (n / 4096)) (hexDigit (n / 256)) (hexDigit (n / 16)) (hexDigit n) = some n := by
  rw [hex4, hexValue_hexDigit, hexValue_hexDigit, hexValue_hexDigit, hexValue_hexDigit]
  refine congrArg some ?_
  omega

def pieceOf (c : Char) : Piece :=
  if (shortEscapes.find? fun p => p.2 = c).isSome then .plain c
  else if isEscaped c then .unit c.toNat else .plain c

theorem isEscaped_unit {c : Char} (h : isEscaped c = true) : c.toNat < 65536 ∧ isHigh c.toNat = false ∧ isLow c.toNat = false := by
  have hsmall : c.toNat < 0x20 ∨ c ∈ ['<', '>', '&', '\u2028', '\u2029'] := of_decide_eq_true h
  rcases hsmall with hsmall | hsmall
  · refine ⟨by omega, decide_eq_false ?_, decide_eq_false ?_⟩ <;> omega
  · have hall : ∀ c ∈ ['<', '>', '&', '\u2028', '\u2029'],
        c.toNat < 65536 ∧ isHigh c.toNat = false ∧ isLow c.toNat = false := by decide
    exact hall c hsmall

theorem joinPieces_unit {n : Nat} (hhigh : isHigh n = false) (hlow : isLow n = false) (pieces : List Piece) :
    joinPieces (.unit n :: pieces) = Char.ofNat n :: joinPieces pieces := by
  conv_lhs => unfold joinPieces
  rw [hhigh, hlow]
  exact if_neg (by decide)

@[simp] theorem joinPieces_map (s : List Char) : joinPieces (s.map pieceOf) = s := by
  induction s with
  | nil => rfl
  | cons c s ih =>
    rw [List.map_cons, pieceOf]
    split
    · rw [joinPieces, ih]
    split
    · rename_i hescaped
      obtain ⟨-, hhigh, hlow⟩ := isEscaped_unit hescaped
      rw [joinPieces_unit hhigh hlow, ih, Char.ofNat_toNat]
    · rw [joinPieces, ih]

theorem unescape_short {p : Char × Char} {c : Char} (h : shortEscapes.find? (fun p => p.2 = c) = some p) :
    unescape p.1 = some c ∧ p.1 ≠ 'u' := by
  have hall : ∀ p ∈ shortEscapes, unescape p.1 = some p.2 ∧ p.1 ≠ 'u' := by decide
  have hc : p.2 = c := by simpa using List.find?_some h
  rw [← hc]
  exact hall p (List.mem_of_find?_eq_some h)

theorem readPieces_escapeChar {pieces : List Piece} {s rest : List Char} (c : Char)
    (h : readPieces s = some (pieces, rest)) : readPieces (escapeChar c ++ s) = some (pieceOf c :: pieces, rest) := by
  unfold escapeChar pieceOf
  cases hshort : shortEscapes.find? fun p => p.2 = c with
  | some p =>
    obtain ⟨hback, hu⟩ := unescape_short hshort
    show readPieces ('\\' :: p.1 :: s) = _
    unfold readPieces
    rw [if_neg (by decide), if_pos rfl]
    dsimp only
    rw [if_neg hu, hback, h]
    rfl
  | none =>
    have hplain : ∀ e ∈ ['"', '\\'], c ≠ e := by
      rintro e he rfl
      have hall : ∀ e ∈ ['"', '\\'], (shortEscapes.find? fun p => p.2 = e).isSome := by decide
      have hsome := hall c he
      rw [hshort] at hsome
      cases hsome
    by_cases hescaped : isEscaped c = true
    · rw [hescaped]
      show readPieces ('\\' :: 'u' :: hexDigit _ :: hexDigit _ :: hexDigit _ :: hexDigit _ :: s) = _
      unfold readPieces
      rw [if_neg (by decide), if_pos rfl]
      dsimp only
      rw [if_pos rfl, hex4_hexDigit (isEscaped_unit hescaped).1, h]
      rfl
    · have hlarge : ¬ c.toNat < 0x20 := fun hlt => hescaped (decide_eq_true (.inl hlt))
      rw [Bool.eq_false_of_not_eq_true hescaped]
      show readPieces (c :: s) = _
      unfold readPieces
      rw [if_neg (hplain _ (by decide)), if_neg (hplain _ (by decide)), if_neg hlarge, h]
      rfl

@[grind =]
theorem readString_quote (s rest : List Char) : readString (s.flatMap escapeChar ++ '"' :: rest) = some (s, rest) := by
  have hpieces : readPieces (s.flatMap escapeChar ++ '"' :: rest) = some (s.map pieceOf, rest) := by
    induction s with
    | nil =>
      show readPieces ('"' :: rest) = _
      unfold readPieces
      rw [if_pos rfl]
      rfl
    | cons c s ih =>
      rw [List.flatMap_cons, List.append_assoc]
      exact readPieces_escapeChar c ih
  rw [readString, hpieces, Option.map_some]
  dsimp only
  rw [joinPieces_map]

def intText (n : Int) : List Char := if n < 0 then '-' :: Decimal.numeral n.natAbs else Decimal.numeral n.natAbs

/-- A literal that is an integer of `bits` bits. -/
def toInt (bits : Nat) (literal : List Char) : Option Int :=
  let negative : Bool := literal.head? = some '-'
  let digits := if negative then literal.tail else literal
  let n : Int := if negative then -Decimal.value digits else Decimal.value digits
  if digits ≠ [] ∧ digits.all Decimal.isDigit ∧ -2 ^ (bits - 1) ≤ n ∧ n < 2 ^ (bits - 1) then some n else none

def Stops (s : List Char) : Prop := ∀ c ∈ s.head?, Decimal.isDigit c = false ∧ c ≠ '.' ∧ c ≠ 'e' ∧ c ≠ 'E'

section
variable {rest : List Char} {n : Nat}

@[grind =]
theorem readDigits_numeral (hrest : ∀ c ∈ rest.head?, Decimal.isDigit c = false) (n : Nat) :
    readDigits (Decimal.numeral n ++ rest) = some (Decimal.numeral n, rest) := by
  have hall : ∀ c ∈ Decimal.numeral n, Decimal.isDigit c = true := fun c => Decimal.isDigit_of_mem_numeral
  have htake : (Decimal.numeral n ++ rest).takeWhile Decimal.isDigit = Decimal.numeral n := by
    rw [List.takeWhile_append_of_pos hall]
    cases rest with
    | nil => exact List.append_nil _
    | cons c rest => rw [List.takeWhile_cons_of_neg (by simp [hrest c rfl]), List.append_nil]
  have hdrop : (Decimal.numeral n ++ rest).dropWhile Decimal.isDigit = rest := by
    rw [List.dropWhile_append_of_pos hall]
    cases rest with
    | nil => rfl
    | cons c rest => rw [List.dropWhile_cons_of_neg (by simp [hrest c rfl])]
  rw [readDigits, htake, hdrop, if_neg (Decimal.numeral_ne_nil n)]

@[grind =]
theorem readWhole_numeral (hrest : ∀ c ∈ rest.head?, Decimal.isDigit c = false) (n : Nat) :
    readWhole (Decimal.numeral n ++ rest) = some (Decimal.numeral n, rest) := by
  by_cases hn : n = 0
  · have hzero : Decimal.numeral 0 = ['0'] := by decide +kernel
    rw [hn, hzero]
    rfl
  · have hdigits := readDigits_numeral hrest n
    obtain ⟨c, digits, hcons, hc⟩ := Decimal.numeral_head hn
    rw [hcons] at hdigits ⊢
    unfold readWhole
    split
    · rename_i heq
      exact absurd (List.cons.inj heq).1 hc
    · exact hdigits

@[grind =] theorem readUnsigned_numeral (hrest : Stops rest) (n : Nat) :
    readUnsigned (Decimal.numeral n ++ rest) = some (Decimal.numeral n, rest) := by
  have hfraction : readFraction rest = some ([], rest) := by
    unfold readFraction
    split
    · exact absurd rfl (hrest '.' rfl).2.1
    · rfl
  have hexponent : readExponent rest = some ([], rest) := by
    unfold readExponent
    split
    · rename_i c rest
      rw [if_neg (not_or.mpr (hrest c rfl).2.2)]
    · rfl
  unfold readUnsigned
  rw [readWhole_numeral (fun c hc => (hrest c hc).1)]
  dsimp only
  rw [hfraction]
  dsimp only
  rw [hexponent, Option.map_some, List.append_nil, List.append_nil]

@[grind =]
theorem readNumber_intText (hrest : Stops rest) (n : Int) : readNumber (intText n ++ rest) = some (intText n, rest) := by
  unfold intText
  split
  · rw [List.cons_append, readNumber, readUnsigned_numeral hrest]
    rfl
  · obtain ⟨c, digits, hcons⟩ := List.exists_cons_of_ne_nil (Decimal.numeral_ne_nil n.natAbs)
    have hdigit : Decimal.isDigit c = true := Decimal.isDigit_of_mem_numeral (hcons ▸ List.mem_cons_self)
    have hunsigned := readUnsigned_numeral hrest n.natAbs
    rw [hcons] at hunsigned ⊢
    unfold readNumber
    split
    · rename_i heq
      rw [(List.cons.inj heq).1] at hdigit
      cases hdigit
    · exact hunsigned

theorem toInt_intText {bits : Nat} {n : Int} (hlow : -2 ^ (bits - 1) ≤ n) (hhigh : n < 2 ^ (bits - 1)) :
    toInt bits (intText n) = some n := by
  have hall : (Decimal.numeral n.natAbs).all Decimal.isDigit = true :=
    List.all_eq_true.mpr fun c => Decimal.isDigit_of_mem_numeral
  have hne := Decimal.numeral_ne_nil n.natAbs
  unfold toInt intText
  split
  · have hneg : -(n.natAbs : Int) = n := by omega
    simp only [List.head?_cons, decide_true, if_true, List.tail_cons, Decimal.value_numeral, hneg]
    exact if_pos ⟨hne, hall, hlow, hhigh⟩
  · obtain ⟨c, digits, hcons⟩ := List.exists_cons_of_ne_nil hne
    have hdigit : Decimal.isDigit c = true := Decimal.isDigit_of_mem_numeral (hcons ▸ List.mem_cons_self)
    have hhead : (decide ((Decimal.numeral n.natAbs).head? = some '-')) = false := by
      rw [hcons]
      refine decide_eq_false fun heq => ?_
      rw [Option.some.inj heq] at hdigit
      cases hdigit
    have hpos : (n.natAbs : Int) = n := by omega
    simp only [hhead, if_false, Decimal.value_numeral, hpos, Bool.false_eq_true]
    exact if_pos ⟨hne, hall, hlow, hhigh⟩

end

@[grind =]
theorem skipSpace_of_not {c : Char} (h : c ∉ [' ', '\t', '\r', '\n']) (s : List Char) : skipSpace (c :: s) = c :: s :=
  List.dropWhile_cons_of_neg (by simpa using h)

@[grind =]
theorem after_cons {c : Char} (h : c ∉ [' ', '\t', '\r', '\n']) (s : List Char) : after c (c :: s) = some s := by
  rw [after, skipSpace_of_not h, afterWord, if_pos (by simp)]
  rfl

theorem after_other {c d : Char} (h : d ∉ [' ', '\t', '\r', '\n']) (hne : c ≠ d) (s : List Char) :
    after c (d :: s) = none := by
  rw [after, skipSpace_of_not h, afterWord, if_neg]
  simpa using hne

structure Reads (j : Json) (d : Nat) : Prop where
  starts : ∃ c s, print j = c :: s ∧ c ∉ [' ', '\t', '\r', '\n'] ∧ c ≠ ']'
  reads : ∀ fuel depth rest, 2 * (print j).length + 1 ≤ fuel → d ≤ depth → Stops rest →
    readValue fuel depth (print j ++ rest) = some (j, rest)

theorem Reads.mono {j : Json} {d d' : Nat} (h : Reads j d) (hle : d ≤ d') : Reads j d' where
  starts := h.starts
  reads fuel depth rest hfuel hdepth hrest := h.reads fuel depth rest hfuel (hle.trans hdepth) hrest

theorem reads_null : Reads .null 0 where
  starts := ⟨_, _, rfl, by decide, by decide⟩
  reads fuel depth rest hfuel _ _ := by
    obtain ⟨fuel, rfl⟩ := Nat.exists_eq_add_one_of_ne_zero (Nat.ne_zero_of_lt hfuel)
    show readValue (fuel + 1) depth ('n' :: 'u' :: 'l' :: 'l' :: rest) = _
    unfold readValue
    rw [skipSpace_of_not (by decide)]
    rfl

theorem reads_str (s : List Char) : Reads (.str s) 0 where
  starts := ⟨'"', _, rfl, by decide, by decide⟩
  reads fuel depth rest hfuel _ _ := by
    obtain ⟨fuel, rfl⟩ := Nat.exists_eq_add_one_of_ne_zero (Nat.ne_zero_of_lt hfuel)
    have htext : print (.str s) ++ rest = '"' :: (s.flatMap escapeChar ++ '"' :: rest) := by
      simp [print, quote]
    rw [htext]
    unfold readValue
    rw [skipSpace_of_not (by decide)]
    dsimp only
    rw [if_pos rfl, readString_quote]
    rfl

theorem reads_int (n : Int) : Reads (.num (intText n)) 0 := by
  have hcons : ∃ c s, intText n = c :: s ∧ (c = '-' ∨ Decimal.isDigit c = true) := by
    unfold intText
    split
    · exact ⟨_, _, rfl, .inl rfl⟩
    · obtain ⟨c, digits, hcons⟩ := List.exists_cons_of_ne_nil (Decimal.numeral_ne_nil n.natAbs)
      exact ⟨c, digits, hcons, .inr (Decimal.isDigit_of_mem_numeral (hcons ▸ List.mem_cons_self))⟩
  obtain ⟨c, s, htext, hc⟩ := hcons
  have hother : ∀ d ∈ [' ', '\t', '\r', '\n', '"', '[', ']', '{', 'n', 't', 'f'], c ≠ d := by
    rintro d hd rfl
    have hall : ∀ d ∈ [' ', '\t', '\r', '\n', '"', '[', ']', '{', 'n', 't', 'f'],
        d ≠ '-' ∧ Decimal.isDigit d = false := by decide
    obtain ⟨hdash, hdigit⟩ := hall c hd
    rcases hc with rfl | hc
    · exact hdash rfl
    · rw [hdigit] at hc
      cases hc
  have hspace : c ∉ [' ', '\t', '\r', '\n'] := fun hmem =>
    hother c (List.mem_append_left ['"', '[', ']', '{', 'n', 't', 'f'] hmem) rfl
  refine ⟨⟨c, s, htext, hspace, hother _ (by decide)⟩, fun fuel depth rest hfuel _ hrest => ?_⟩
  obtain ⟨fuel, rfl⟩ := Nat.exists_eq_add_one_of_ne_zero (Nat.ne_zero_of_lt hfuel)
  have hnumber := readNumber_intText hrest n
  show readValue (fuel + 1) depth (intText n ++ rest) = _
  unfold readValue
  rw [htext, List.cons_append] at hnumber ⊢
  rw [skipSpace_of_not hspace]
  dsimp only
  rw [if_neg (hother _ (by decide)), if_neg (hother _ (by decide)), if_neg (hother _ (by decide)),
    if_neg (hother _ (by decide)), if_neg (hother _ (by decide)), if_neg (hother _ (by decide)), hnumber]
  rfl

section
variable {d : Nat}

theorem stops_close {c : Char} (h : c ∈ [',', ']', '}']) (s : List Char) : Stops (c :: s) := by
  have hall : ∀ c ∈ [',', ']', '}'], Decimal.isDigit c = false ∧ c ≠ '.' ∧ c ≠ 'e' ∧ c ≠ 'E' := by decide
  intro e he
  rw [← Option.some.inj he]
  exact hall c h

theorem readElems_print {value : Json} {values : List Json} (h : ∀ v ∈ value :: values, Reads v d) {fuel depth : Nat}
    (hfuel : 2 * (printElems (value :: values)).length + 2 ≤ fuel) (hdepth : d ≤ depth) (rest : List Char) :
    readElems fuel depth (printElems (value :: values) ++ ']' :: rest) = some (value :: values, rest) := by
  induction values generalizing value fuel with
  | nil =>
    obtain ⟨fuel, rfl⟩ := Nat.exists_eq_add_one_of_ne_zero (Nat.ne_zero_of_lt hfuel)
    have htext : printElems [value] ++ ']' :: rest = print value ++ ']' :: rest := by
      rw [printElems, printMoreElems, List.append_nil]
    have hlen : (printElems [value]).length = (print value).length := by
      rw [printElems, printMoreElems, List.append_nil]
    rw [htext]
    unfold readElems
    rw [(h value List.mem_cons_self).reads fuel depth _ (by omega) hdepth (stops_close (by decide) rest)]
    dsimp only
    rw [after_other (by decide) (by decide), after_cons (by decide)]
    rfl
  | cons next values ih =>
    obtain ⟨fuel, rfl⟩ := Nat.exists_eq_add_one_of_ne_zero (Nat.ne_zero_of_lt hfuel)
    have htext : printElems (value :: next :: values) = print value ++ ',' :: printElems (next :: values) := by
      rw [printElems, printMoreElems, printElems, List.cons_append]
    have hlen := congrArg List.length htext
    rw [List.length_append, List.length_cons] at hlen
    rw [htext, List.append_assoc, List.cons_append]
    unfold readElems
    rw [(h value List.mem_cons_self).reads fuel depth _ (by omega) hdepth (stops_close (by decide) _)]
    dsimp only
    rw [after_cons (by decide)]
    dsimp only
    rw [ih (fun v hv => h v (List.mem_cons_of_mem _ hv)) (by omega)]
    rfl

theorem reads_arr {elems : List Json} (h : ∀ v ∈ elems, Reads v d) : Reads (.arr elems) (d + 1) where
  starts := ⟨'[', _, rfl, by decide, by decide⟩
  reads fuel depth rest hfuel hdepth _ := by
    obtain ⟨fuel, rfl⟩ := Nat.exists_eq_add_one_of_ne_zero (Nat.ne_zero_of_lt hfuel)
    obtain ⟨depth, rfl⟩ := Nat.exists_eq_add_one_of_ne_zero (Nat.ne_zero_of_lt hdepth)
    have htext : print (.arr elems) ++ rest = '[' :: (printElems elems ++ ']' :: rest) := by
      simp [print]
    have hlen : (print (.arr elems)).length = (printElems elems).length + 2 := by
      simp [print]
    rw [htext]
    unfold readValue
    rw [skipSpace_of_not (by decide)]
    dsimp only
    rw [if_neg (by decide), if_pos rfl]
    cases elems with
    | nil =>
      have hclose : after ']' (printElems [] ++ ']' :: rest) = some rest := after_cons (by decide) rest
      rw [hclose]
    | cons value values =>
      obtain ⟨c, s, hcons, hspace, hne⟩ := (h value List.mem_cons_self).starts
      have hopen : after ']' (printElems (value :: values) ++ ']' :: rest) = none := by
        rw [printElems, hcons, List.cons_append, List.cons_append]
        exact after_other hspace hne.symm _
      rw [hopen]
      dsimp only
      rw [readElems_print h (by omega) (Nat.le_of_succ_le_succ hdepth)]
      rfl

theorem readMembers_print {key : List Char} {value : Json} {members : List (List Char × Json)}
    (h : ∀ m ∈ (key, value) :: members, Reads m.2 d) {fuel depth : Nat}
    (hfuel : 2 * (printMembers ((key, value) :: members)).length + 2 ≤ fuel) (hdepth : d ≤ depth) (rest : List Char) :
    readMembers fuel depth (printMembers ((key, value) :: members) ++ '}' :: rest) =
      some ((key, value) :: members, rest) := by
  have hkey : ∀ (key : List Char) (s : List Char), (after '"' (quote key ++ s) >>= readString) = some (key, s) := by
    intro key s
    have htext : quote key ++ s = '"' :: (key.flatMap escapeChar ++ '"' :: s) := by simp [quote]
    rw [htext, after_cons (by decide)]
    exact readString_quote key s
  induction members generalizing key value fuel with
  | nil =>
    obtain ⟨fuel, rfl⟩ := Nat.exists_eq_add_one_of_ne_zero (Nat.ne_zero_of_lt hfuel)
    have hvalue : Reads value d := h (key, value) List.mem_cons_self
    have htext : printMembers [(key, value)] ++ '}' :: rest = quote key ++ ':' :: (print value ++ '}' :: rest) := by
      simp [printMembers, printMoreMembers]
    have hlen : (print value).length < (printMembers [(key, value)]).length := by
      simp [printMembers, printMoreMembers]
      omega
    rw [htext]
    unfold readMembers
    rw [hkey]
    dsimp only
    rw [after_cons (by decide)]
    dsimp only [Option.bind_eq_bind, Option.bind_some]
    rw [hvalue.reads fuel depth _ (by omega) hdepth (stops_close (by decide) rest)]
    dsimp only
    rw [after_other (by decide) (by decide), after_cons (by decide)]
    rfl
  | cons m members ih =>
    obtain ⟨fuel, rfl⟩ := Nat.exists_eq_add_one_of_ne_zero (Nat.ne_zero_of_lt hfuel)
    obtain ⟨key', value'⟩ := m
    have hvalue : Reads value d := h (key, value) List.mem_cons_self
    have htext : printMembers ((key, value) :: (key', value') :: members) ++ '}' :: rest =
        quote key ++ ':' :: (print value ++ ',' :: (printMembers ((key', value') :: members) ++ '}' :: rest)) := by
      simp [printMembers, printMoreMembers]
    have hlen : (print value).length + (printMembers ((key', value') :: members)).length <
        (printMembers ((key, value) :: (key', value') :: members)).length := by
      simp [printMembers, printMoreMembers]
      omega
    rw [htext]
    unfold readMembers
    rw [hkey]
    dsimp only
    rw [after_cons (by decide)]
    dsimp only [Option.bind_eq_bind, Option.bind_some]
    rw [hvalue.reads fuel depth _ (by omega) hdepth (stops_close (by decide) _)]
    dsimp only
    rw [after_cons (by decide)]
    dsimp only
    rw [ih (fun m hm => h m (List.mem_cons_of_mem _ hm)) (by omega)]
    rfl

theorem reads_obj {members : List (List Char × Json)} (h : ∀ m ∈ members, Reads m.2 d) : Reads (.obj members) (d + 1) where
  starts := ⟨'{', _, rfl, by decide, by decide⟩
  reads fuel depth rest hfuel hdepth _ := by
    obtain ⟨fuel, rfl⟩ := Nat.exists_eq_add_one_of_ne_zero (Nat.ne_zero_of_lt hfuel)
    obtain ⟨depth, rfl⟩ := Nat.exists_eq_add_one_of_ne_zero (Nat.ne_zero_of_lt hdepth)
    have htext : print (.obj members) ++ rest = '{' :: (printMembers members ++ '}' :: rest) := by
      simp [print]
    have hlen : (print (.obj members)).length = (printMembers members).length + 2 := by
      simp [print]
    rw [htext]
    unfold readValue
    rw [skipSpace_of_not (by decide)]
    dsimp only
    rw [if_neg (by decide), if_neg (by decide), if_pos rfl]
    cases members with
    | nil =>
      have hclose : after '}' (printMembers [] ++ '}' :: rest) = some rest := after_cons (by decide) rest
      rw [hclose]
    | cons m members =>
      obtain ⟨key, value⟩ := m
      have hopen : after '}' (printMembers ((key, value) :: members) ++ '}' :: rest) = none := by
        have hquote : ∃ s, printMembers ((key, value) :: members) = '"' :: s := ⟨_, rfl⟩
        obtain ⟨s, hs⟩ := hquote
        rw [hs, List.cons_append]
        exact after_other (by decide) (by decide) _
      rw [hopen]
      dsimp only
      rw [readMembers_print h (by omega) (Nat.le_of_succ_le_succ hdepth)]
      rfl

theorem read_print {j : Json} (h : Reads j d) (hdepth : d ≤ maxNestingDepth) : read (print j) = some j := by
  have hreads := h.reads (2 * (print j).length + 2) maxNestingDepth [] (by omega) hdepth nofun
  rw [List.append_nil] at hreads
  rw [read, hreads]
  rfl

end

end Json

end ProxBack.Lib
