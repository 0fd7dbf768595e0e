import Mathlib.Data.List.Basic
import Mathlib.Data.List.TakeWhile
import ProxBack.Lib.Lists

/-! How a POSIX shell reads a line that is one simple command: its words, with quotations taken
off. Whatever else a line can be is not a simple command of plain words and has no reading here. -/
namespace ProxBack.Lib.Shell

abbrev Word := List (Char × Bool)

namespace Word

def text (w : Word) : List Char := w.map Prod.fst

def bare (s : List Char) : Word := s.map fun c => (c, false)

def isPattern (w : Word) : Bool := w.any fun p => !p.2 && p.1 ∈ ['*', '?', '[']

/-- What stands for the word, where `glob` has the names that match a pattern. -/
def expand (glob : Word → List (List Char)) (w : Word) : List (List Char) :=
  if w.isPattern then
    match glob w with
    | [] => [w.text]
    | names => names
  else [w.text]

end Word

def isBlank (c : Char) : Bool := c ∈ [' ', '\t']

def isOperator (c : Char) : Bool := c ∈ ['\n', '|', '&', ';', '<', '>', '(', ')']

def isQuote (c : Char) : Bool := c ∈ ['\'', '"', '\\']

/-- What begins an expansion of a parameter, a command or a number; and NUL, which the text of no
command holds. -/
def isExpansion (c : Char) : Bool := c ∈ ['$', Char.ofNat 96, Char.ofNat 0]

def isSpecial (c : Char) : Bool := isBlank c || isOperator c || isQuote c || isExpansion c

inductive Mode where
  | plain
  | single
  | double
deriving DecidableEq, Repr

def push (p : Char × Bool) (out : Word × List Char) : Word × List Char := (p :: out.1, out.2)

/-- The rest of a word and the text after it. There is none where a quotation does not end, or
where something is to be expanded. -/
def scanWord : Mode → List Char → Option (Word × List Char)
  | .plain, [] => some ([], [])
  | .plain, c :: s =>
    if isBlank c || isOperator c then some ([], c :: s)
    else if c = '\'' then scanWord .single s
    else if c = '"' then scanWord .double s
    else if c = '\\' then
      match s with
      | [] => none
      | d :: s => if d = '\n' then scanWord .plain s else (scanWord .plain s).map (push (d, true))
    else if isExpansion c then none
    else (scanWord .plain s).map (push (c, false))
  | .single, [] => none
  | .single, c :: s =>
    if c = '\'' then scanWord .plain s else (scanWord .single s).map (push (c, true))
  | .double, [] => none
  | .double, c :: s =>
    if c = '"' then scanWord .plain s
    else if c = '\\' then
      match s with
      | [] => none
      | d :: s =>
        if d = '\n' then scanWord .double s
        else if d = '"' ∨ d = '\\' ∨ isExpansion d then (scanWord .double s).map (push (d, true))
        else (scanWord .double s).map fun out => push (c, true) (push (d, true) out)
    else if isExpansion c then none
    else (scanWord .double s).map (push (c, true))

def quotes (s : List Char) : Nat := s.countP isQuote

@[simp] theorem quotes_cons (c : Char) (s : List Char) :
    quotes (c :: s) = quotes s + if isQuote c then 1 else 0 := List.countP_cons

@[simp] theorem quotes_push (p : Char × Bool) (w : Word) :
    quotes (Word.text (p :: w)) = quotes (Word.text w) + if isQuote p.1 then 1 else 0 :=
  List.countP_cons

theorem quotes_le_cons (c : Char) (s : List Char) : quotes s ≤ quotes (c :: s) := by
  rw [quotes_cons]
  exact Nat.le_add_right _ _

/-- What is left of the text after a word, and the quotation marks the word has kept of it. -/
structure Within (s : List Char) (out : Word × List Char) : Prop where
  length : out.2.length ≤ s.length
  quotes : quotes out.1.text + Shell.quotes out.2 ≤ Shell.quotes s

theorem Within.skip {s : List Char} {out : Word × List Char} (h : Within s out) (c : Char) :
    Within (c :: s) out :=
  ⟨Nat.le_succ_of_le h.length, Nat.le_trans h.quotes (quotes_le_cons c s)⟩

theorem Within.push {s : List Char} {out : Word × List Char} (h : Within s out) (c : Char)
    (quoted : Bool) : Within (c :: s) (push (c, quoted) out) := by
  refine ⟨Nat.le_succ_of_le h.length, ?_⟩
  have htext : Shell.quotes (Shell.push (c, quoted) out).1.text =
      Shell.quotes out.1.text + if isQuote c then 1 else 0 := quotes_push (c, quoted) out.1
  have hrest : Shell.quotes (Shell.push (c, quoted) out).2 = Shell.quotes out.2 := rfl
  have hle := h.quotes
  rw [htext, hrest, quotes_cons]
  omega

theorem scanWord_within {m : Mode} {s : List Char} {out : Word × List Char}
    (h : scanWord m s = some out) : Within s out := by
  fun_induction scanWord m s generalizing out with
  | case1 =>
    cases h
    exact ⟨Nat.le_refl 0, Nat.le_refl 0⟩
  | case2 c s hend =>
    cases h
    exact ⟨Nat.le_refl _, Nat.le_of_eq (Nat.zero_add _)⟩
  | case3 s hend ih => exact (ih h).skip _
  | case4 s hend hne ih => exact (ih h).skip _
  | case5 => cases h
  | case6 s hend hne hne' ih => exact ((ih h).skip _).skip _
  | case7 d s hd hend hne hne' ih =>
    obtain ⟨out', hout', rfl⟩ := Option.map_eq_some_iff.mp h
    exact ((ih hout').push d true).skip _
  | case8 => cases h
  | case9 c s hend hne hne' hne'' hexp ih =>
    obtain ⟨out', hout', rfl⟩ := Option.map_eq_some_iff.mp h
    exact (ih hout').push c false
  | case10 => cases h
  | case11 s ih => exact (ih h).skip _
  | case12 c s hne ih =>
    obtain ⟨out', hout', rfl⟩ := Option.map_eq_some_iff.mp h
    exact (ih hout').push c true
  | case13 => cases h
  | case14 s ih => exact (ih h).skip _
  | case15 => cases h
  | case16 s hne ih => exact ((ih h).skip _).skip _
  | case17 d s hd hesc hne ih =>
    obtain ⟨out', hout', rfl⟩ := Option.map_eq_some_iff.mp h
    exact ((ih hout').push d true).skip _
  | case18 d s hd hesc hne ih =>
    obtain ⟨out', hout', rfl⟩ := Option.map_eq_some_iff.mp h
    exact ((ih hout').push d true).push _ true
  | case19 => cases h
  | case20 c s hne hne' hexp ih =>
    obtain ⟨out', hout', rfl⟩ := Option.map_eq_some_iff.mp h
    exact (ih hout').push c true

theorem scanWord_plain (c : Char) (s : List Char) : scanWord .plain (c :: s) =
    if isBlank c || isOperator c then some ([], c :: s)
    else if c = '\'' then scanWord .single s
    else if c = '"' then scanWord .double s
    else if c = '\\' then
      match s with
      | [] => none
      | d :: s => if d = '\n' then scanWord .plain s else (scanWord .plain s).map (push (d, true))
    else if isExpansion c then none
    else (scanWord .plain s).map (push (c, false)) := by
  rw [scanWord.eq_def]

theorem scanWord_quote {c : Char} {s : List Char} {out : Word × List Char} (hc : isQuote c = true)
    (h : scanWord .plain (c :: s) = some out) : Within s out := by
  have hmem : c = '\'' ∨ c = '"' ∨ c = '\\' := by simpa [isQuote] using hc
  rcases hmem with rfl | rfl | rfl
  · rw [scanWord_plain, if_neg (by decide), if_pos rfl] at h
    exact scanWord_within h
  · rw [scanWord_plain, if_neg (by decide), if_neg (by decide), if_pos rfl] at h
    exact scanWord_within h
  · rw [scanWord_plain, if_neg (by decide), if_neg (by decide), if_neg (by decide), if_pos rfl] at h
    cases s with
    | nil => cases h
    | cons d s =>
      dsimp only at h
      split at h
      · exact (scanWord_within h).skip d
      · obtain ⟨out', hout', rfl⟩ := Option.map_eq_some_iff.mp h
        exact (scanWord_within hout').push d true

@[grind =] theorem scanWord_cons {c : Char} (s : List Char) (hc : isSpecial c = false) :
    scanWord .plain (c :: s) = (scanWord .plain s).map (push (c, false)) := by
  unfold isSpecial at hc
  simp only [Bool.or_eq_false_iff] at hc
  obtain ⟨⟨⟨hblank, hop⟩, hquote⟩, hexp⟩ := hc
  have hmem : ¬ (c = '\'' ∨ c = '"' ∨ c = '\\') := by
    have hno : ¬ isQuote c = true := by
      rw [hquote]
      nofun
    simpa [isQuote] using hno
  rw [scanWord_plain, if_neg (by rw [hblank, hop]; nofun), if_neg fun h => hmem (.inl h),
    if_neg fun h => hmem (.inr (.inl h)), if_neg fun h => hmem (.inr (.inr h)),
    if_neg (by rw [hexp]; nofun)]

@[grind =] theorem scanWord_expansion {c : Char} (s : List Char) (hc : isExpansion c = true) :
    scanWord .plain (c :: s) = none := by
  have hmem : c = '$' ∨ c = Char.ofNat 96 ∨ c = Char.ofNat 0 := by simpa [isExpansion] using hc
  rcases hmem with rfl | rfl | rfl
  · rw [scanWord_plain]
    rfl
  · rw [scanWord_plain]
    rfl
  · rw [scanWord_plain]
    rfl

theorem scanWord_lt {c : Char} {s : List Char} {out : Word × List Char}
    (hend : ¬ (isBlank c || isOperator c) = true) (h : scanWord .plain (c :: s) = some out) :
    out.2.length < (c :: s).length := by
  by_cases hquote : isQuote c = true
  · exact Nat.lt_succ_of_le (scanWord_quote hquote h).length
  · by_cases hexp : isExpansion c = true
    · rw [scanWord_expansion s hexp] at h
      cases h
    · have hc : isSpecial c = false := by simp_all [isSpecial]
      rw [scanWord_cons s hc] at h
      obtain ⟨out', hout', rfl⟩ := Option.map_eq_some_iff.mp h
      exact Nat.lt_succ_of_le (scanWord_within hout').length

def blankLines (s : List Char) : Bool := s.all fun c => isBlank c || c = '\n'

theorem not_end {c : Char} (hblank : ¬ isBlank c = true) (hop : ¬ (isOperator c = true ∨ c = '~')) :
    ¬ (isBlank c || isOperator c) = true := by
  rw [Bool.or_eq_true]
  exact fun h => h.elim hblank fun h => hop (.inl h)

/-- The words of a line that is one command without a list, a pipeline, a redirection or an
expansion in it. -/
def simpleCommand : List Char → Option (List Word)
  | [] => some []
  | c :: s =>
    if hblank : isBlank c = true then simpleCommand s
    else if c = '\n' then if blankLines s then some [] else none
    else if c = '#' then if blankLines (s.dropWhile (· ≠ '\n')) then some [] else none
    else if hop : isOperator c = true ∨ c = '~' then none
    else
      match h : scanWord .plain (c :: s) with
      | none => none
      | some out =>
        have := scanWord_lt (not_end hblank hop) h
        (simpleCommand out.2).map (out.1 :: ·)
termination_by s => s.length
decreasing_by
  · exact Nat.lt_succ_self s.length
  · exact this

def reserved : List String :=
  ["!", "\x7b", "\x7d", "case", "do", "done", "elif", "else", "esac", "fi", "for", "if", "in", "then",
    "until", "while"]

def Word.isName (w : Word) : Bool :=
  w.all (fun p => !p.2 && p.1 ≠ '=') && !(String.ofList w.text ∈ reserved)

/-- The line is one simple command of these arguments: each of its words stands for itself. -/
def Reads (glob : Word → List (List Char)) (line : String) (args : List String) : Prop :=
  ∃ w ws, simpleCommand line.toList = some (w :: ws) ∧ w.isName = true ∧
    (w :: ws).map (fun w => String.ofList w.text) = args ∧
    ∀ v ∈ w :: ws, v.expand glob = [v.text]

@[simp] theorem simpleCommand_nil : simpleCommand [] = some [] := by rw [simpleCommand]

@[grind =] theorem simpleCommand_blank {c : Char} (h : isBlank c = true) (s : List Char) :
    simpleCommand (c :: s) = simpleCommand s := by
  rw [simpleCommand, dif_pos h]

structure Plain (s : List Char) : Prop where
  ne_nil : s ≠ []
  chars : ∀ c ∈ s, isSpecial c = false
  head : ∀ c ∈ s.head?, c ≠ '#' ∧ c ≠ '~'

theorem simpleCommand_cons {c : Char} (hc : isSpecial c = false) (hhead : c ≠ '#' ∧ c ≠ '~')
    (s : List Char) : simpleCommand (c :: s) =
      (scanWord .plain (c :: s)).bind fun out => (simpleCommand out.2).map (out.1 :: ·) := by
  unfold isSpecial at hc
  simp only [Bool.or_eq_false_iff] at hc
  obtain ⟨⟨⟨hblank, hop⟩, -⟩, -⟩ := hc
  have hline : c ≠ '\n' := by
    rintro rfl
    cases hop
  have hstop : ¬ (isOperator c = true ∨ c = '~') := by
    rw [hop]
    exact fun h => h.elim nofun hhead.2
  rw [simpleCommand, dif_neg (by rw [hblank]; nofun), if_neg hline, if_neg hhead.1, dif_neg hstop]
  split
  · rename_i hscan
    rw [hscan]
    rfl
  · rename_i out hscan
    simp only [hscan, Option.bind_some]

@[grind =]
theorem scanWord_bare {s : List Char} (h : ∀ c ∈ s, isSpecial c = false) (rest : List Char) :
    scanWord .plain (s ++ rest) =
      (scanWord .plain rest).map fun out => (Word.bare s ++ out.1, out.2) := by
  induction s with
  | nil => exact (congrFun Option.map_id _).symm
  | cons c s ih =>
    rw [List.cons_append, scanWord_cons _ (h c List.mem_cons_self),
      ih fun d hd => h d (List.mem_cons_of_mem c hd), Option.map_map]
    rfl

@[grind =]
theorem scanWord_stop {s : List Char} (h : ∀ c ∈ s.head?, (isBlank c || isOperator c) = true) :
    scanWord .plain s = some ([], s) := by
  cases s with
  | nil => rfl
  | cons c s => rw [scanWord_plain, if_pos (h c rfl)]

theorem simpleCommand_word {s : List Char} (hs : Plain s) {rest : List Char}
    (hrest : ∀ c ∈ rest.head?, (isBlank c || isOperator c) = true) :
    simpleCommand (s ++ rest) = (simpleCommand rest).map (Word.bare s :: ·) := by
  obtain ⟨c, t, rfl⟩ := List.exists_cons_of_ne_nil hs.ne_nil
  rw [List.cons_append, simpleCommand_cons (hs.chars c List.mem_cons_self) (hs.head c rfl),
    ← List.cons_append, scanWord_bare hs.chars, scanWord_stop hrest, Option.map_some,
    Option.bind_some, List.append_nil]

@[simp] theorem text_bare (s : List Char) : (Word.bare s).text = s := by
  rw [Word.text, Word.bare, List.map_map]
  exact List.map_id s

theorem expand_bare (glob : Word → List (List Char)) {s : List Char}
    (h : ∀ c ∈ s, c ∉ ['*', '?', '[']) : (Word.bare s).expand glob = [s] := by
  have hpattern : (Word.bare s).isPattern = false := by
    rw [Word.isPattern, Word.bare, List.any_map, List.any_eq_false]
    intro c hc
    simpa using h c hc
  rw [Word.expand, if_neg (by rw [hpattern]; nofun), text_bare]

/-- A text that is read as the word it is, with more text after a blank, has nothing special in it:
an expansion has no reading, a blank or an operator ends the word early, and a quotation mark is
missing in it. -/
theorem plain_of_scanWord {s tail rest : List Char} {w : Word} (htail : quotes tail = 0)
    (h : scanWord .plain (s ++ tail) = some (w, rest)) (htext : w.text = s) :
    ∀ c ∈ s, isSpecial c = false := by
  cases hdrop : s.dropWhile fun c => !isSpecial c with
  | nil =>
    intro c hc
    have hall := List.dropWhile_eq_nil_iff.mp hdrop c hc
    simpa using hall
  | cons c b =>
    exfalso
    have hc : isSpecial c = true := by
      have hhead := List.head_dropWhile_not (fun c => !isSpecial c) (l := s) (by rw [hdrop]; nofun)
      simpa [hdrop] using hhead
    have hplain : ∀ d ∈ s.takeWhile fun c => !isSpecial c, isSpecial d = false := by
      intro d hd
      simpa using List.mem_takeWhile_imp hd
    have hs : s.takeWhile (fun c => !isSpecial c) ++ c :: b = s := by
      rw [← hdrop, List.takeWhile_append_dropWhile]
    generalize s.takeWhile (fun c => !isSpecial c) = a at hs hplain
    subst hs
    rw [List.append_assoc, List.cons_append, scanWord_bare hplain] at h
    obtain ⟨out, hout, heq⟩ := Option.map_eq_some_iff.mp h
    cases heq
    have htext' : out.1.text = c :: b := by
      have hword : (Word.bare a ++ out.1).text = a ++ out.1.text := by
        rw [Word.text, List.map_append, ← Word.text, text_bare]
        rfl
      rw [hword] at htext
      exact List.append_cancel_left htext
    by_cases hend : (isBlank c || isOperator c) = true
    · rw [scanWord_plain, if_pos hend] at hout
      cases hout
      cases htext'
    · by_cases hexp : isExpansion c = true
      · rw [scanWord_expansion _ hexp] at hout
        cases hout
      · have hquote : isQuote c = true := by simp_all [isSpecial]
        have hle := (scanWord_quote hquote hout).quotes
        have happend : quotes (b ++ tail) = quotes b + quotes tail := List.countP_append
        rw [htext', quotes_cons, if_pos hquote, happend, htail] at hle
        omega

end ProxBack.Lib.Shell
