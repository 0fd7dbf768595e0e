import ProxBack.Lib.SlashPath

/-! Shell patterns, read and matched as Go's `path.Match` does. -/
namespace ProxBack.Lib.Glob

inductive Single where
  | any
  | lit (c : Char)
  | cls (negated : Bool) (ranges : List (Char × Char))
deriving DecidableEq, Repr

/-- A class can stand for the separator, which nothing else but the separator itself can. -/
def Single.accepts : Single → Char → Bool
  | any, c => c ≠ '/'
  | lit d, c => c = d
  | cls negated ranges, c => (ranges.any fun r => r.1 ≤ c ∧ c ≤ r.2) ≠ negated

inductive Tok where
  | star
  | one (s : Single)
deriving DecidableEq, Repr

inductive Mode where
  | text
  | escaped
  | opened
  | low (negated : Bool) (ranges : List (Char × Char))
  | lowEscaped (negated : Bool) (ranges : List (Char × Char))
  | after (negated : Bool) (ranges : List (Char × Char)) (lo : Char)
  | high (negated : Bool) (ranges : List (Char × Char)) (lo : Char)
  | highEscaped (negated : Bool) (ranges : List (Char × Char)) (lo : Char)

def stepLow (negated : Bool) (ranges : List (Char × Char)) (c : Char) : Option (List Tok × Mode) :=
  if c = ']' ∧ ranges ≠ [] then some ([.one (.cls negated ranges)], .text)
  else if c = '-' ∨ c = ']' then none
  else if c = '\\' then some ([], .lowEscaped negated ranges)
  else some ([], .after negated ranges c)

def step : Mode → Char → Option (List Tok × Mode)
  | .text, c =>
    if c = '*' then some ([.star], .text)
    else if c = '?' then some ([.one .any], .text)
    else if c = '[' then some ([], .opened)
    else if c = '\\' then some ([], .escaped)
    else some ([.one (.lit c)], .text)
  | .escaped, c => some ([.one (.lit c)], .text)
  | .opened, c => if c = '^' then some ([], .low true []) else stepLow false [] c
  | .low negated ranges, c => stepLow negated ranges c
  | .lowEscaped negated ranges, c => some ([], .after negated ranges c)
  | .after negated ranges lo, c =>
    if c = '-' then some ([], .high negated ranges lo) else stepLow negated (ranges ++ [(lo, lo)]) c
  | .high negated ranges lo, c =>
    if c = '-' ∨ c = ']' then none
    else if c = '\\' then some ([], .highEscaped negated ranges lo)
    else some ([], .low negated (ranges ++ [(lo, c)]))
  | .highEscaped negated ranges lo, c => some ([], .low negated (ranges ++ [(lo, c)]))

def tokens : Mode → List Char → Option (List Tok)
  | .text, [] => some []
  | _, [] => none
  | m, c :: s => (step m c).bind fun r => (tokens r.2 s).map (r.1 ++ ·)

def parse (pattern : List Char) : Option (List Tok) := tokens .text pattern

def chunks : List Tok → List (Bool × List Single)
  | [] => []
  | .star :: ts =>
    match chunks ts with
    | [] => [(true, [])]
    | (_, chunk) :: rest => (true, chunk) :: rest
  | .one s :: ts =>
    match chunks ts with
    | (false, chunk) :: rest => (false, s :: chunk) :: rest
    | rest => (false, [s]) :: rest

def matchChunk : List Single → List Char → Option (List Char)
  | [], name => some name
  | _ :: _, [] => none
  | s :: chunk, c :: name => if s.accepts c then matchChunk chunk name else none

/-- The first place of a chunk, here or, after a star, further on before the next separator. The
last chunk has to be at the end. -/
def findChunk (star last : Bool) (chunk : List Single) : List Char → Option (List Char)
  | [] => (matchChunk chunk []).filter fun rest => ¬ last ∨ rest = []
  | c :: name =>
    match (matchChunk chunk (c :: name)).filter fun rest => ¬ last ∨ rest = [] with
    | some rest => some rest
    | none => if star ∧ c ≠ '/' then findChunk star last chunk name else none

def matchChunks : List (Bool × List Single) → List Char → Bool
  | [], name => name = []
  | (star, chunk) :: rest, name =>
    if star ∧ chunk = [] then '/' ∉ name
    else
      match findChunk star rest.isEmpty chunk name with
      | some name => matchChunks rest name
      | none => false

/-- `path.Match`; nothing is `ErrBadPattern`. -/
def pathMatch (pattern name : List Char) : Option Bool :=
  (parse pattern).map fun ts => matchChunks (chunks ts) name

def Matches : List Tok → List Char → Prop
  | [], name => name = []
  | .one s :: ts, name => ∃ c rest, name = c :: rest ∧ s.accepts c = true ∧ Matches ts rest
  | .star :: ts, name => ∃ run rest, name = run ++ rest ∧ '/' ∉ run ∧ Matches ts rest

def Safe (ts : List Tok) : Prop := ∀ s, .one s ∈ ts → s.accepts '/' = true → s = .lit '/'

def Tok.safe : Tok → Bool
  | star => true
  | one s => s.accepts '/' = true → s = .lit '/'

@[simp] theorem safe_iff {ts : List Tok} : Safe ts ↔ ∀ t ∈ ts, t.safe = true := by
  constructor
  · intro h t ht
    cases t with
    | star => rfl
    | one s => exact decide_eq_true (h s ht)
  · intro h s hs
    exact of_decide_eq_true (h _ hs)

instance (ts : List Tok) : Decidable (Safe ts) := decidable_of_iff _ safe_iff.symm

@[simp] theorem matches_append {ts us : List Tok} {name : List Char} :
    Matches (ts ++ us) name ↔ ∃ x y, name = x ++ y ∧ Matches ts x ∧ Matches us y := by
  induction ts generalizing name with
  | nil =>
    constructor
    · intro h
      exact ⟨[], name, rfl, rfl, h⟩
    · rintro ⟨x, y, rfl, rfl, h⟩
      exact h
  | cons t ts ih =>
    cases t with
    | one s =>
      constructor
      · rintro ⟨c, rest, rfl, hc, h⟩
        obtain ⟨x, y, rfl, hx, hy⟩ := ih.mp h
        exact ⟨c :: x, y, rfl, ⟨c, x, rfl, hc, hx⟩, hy⟩
      · rintro ⟨_, y, rfl, ⟨c, x, rfl, hc, hx⟩, hy⟩
        exact ⟨c, x ++ y, rfl, hc, ih.mpr ⟨x, y, rfl, hx, hy⟩⟩
    | star =>
      constructor
      · rintro ⟨run, rest, rfl, hrun, h⟩
        obtain ⟨x, y, rfl, hx, hy⟩ := ih.mp h
        exact ⟨run ++ x, y, by rw [List.append_assoc], ⟨run, x, rfl, hrun, hx⟩, hy⟩
      · rintro ⟨_, y, rfl, ⟨run, x, rfl, hrun, hx⟩, hy⟩
        exact ⟨run, x ++ y, by rw [List.append_assoc], hrun, ih.mpr ⟨x, y, rfl, hx, hy⟩⟩

theorem not_mem_of_matches {ts : List Tok} {name : List Char}
    (hts : ∀ s, .one s ∈ ts → s.accepts '/' = false) (h : Matches ts name) : '/' ∉ name := by
  induction ts generalizing name with
  | nil =>
    rw [show name = [] from h]
    nofun
  | cons t ts ih =>
    have hrest : ∀ s, .one s ∈ ts → s.accepts '/' = false := fun s hs => hts s (List.mem_cons_of_mem _ hs)
    cases t with
    | one s =>
      obtain ⟨c, rest, rfl, hc, h⟩ := h
      rintro (_ | ⟨_, hmem⟩)
      · rw [hts s List.mem_cons_self] at hc
        cases hc
      · exact ih hrest h hmem
    | star =>
      obtain ⟨run, rest, rfl, hrun, h⟩ := h
      rw [List.mem_append]
      rintro (hmem | hmem)
      · exact hrun hmem
      · exact ih hrest h hmem

def ChunksMatch : List (Bool × List Single) → List Char → Prop
  | [], name => name = []
  | (star, chunk) :: rest, name =>
    ∃ run tail left, name = run ++ tail ∧ (star = false → run = []) ∧ '/' ∉ run ∧
      matchChunk chunk tail = some left ∧ ChunksMatch rest left

@[grind =] theorem matchChunk_cons {s : Single} {chunk : List Single} {name left : List Char} :
    matchChunk (s :: chunk) name = some left ↔
      ∃ c rest, name = c :: rest ∧ s.accepts c = true ∧ matchChunk chunk rest = some left := by
  cases name with
  | nil => exact iff_of_false nofun fun ⟨_, _, h, _⟩ => nomatch h
  | cons c name =>
    rw [matchChunk]
    constructor
    · intro h
      split at h
      · rename_i hc
        exact ⟨c, name, rfl, hc, h⟩
      · cases h
    · rintro ⟨c', rest, heq, hc, h⟩
      cases heq
      rw [if_pos hc, h]

theorem chunksMatch_chunks {ts : List Tok} {name : List Char} :
    ChunksMatch (chunks ts) name ↔ Matches ts name := by
  induction ts generalizing name with
  | nil => exact Iff.rfl
  | cons t ts ih =>
    cases t with
    | star =>
      have hstar : Matches (.star :: ts) name ↔
          ∃ run rest, name = run ++ rest ∧ '/' ∉ run ∧ ChunksMatch (chunks ts) rest := by
        simp only [ih]
        exact Iff.rfl
      rw [hstar, chunks]
      cases hts : chunks ts with
      | nil =>
        constructor
        · rintro ⟨run, tail, left, rfl, -, hrun, hchunk, hleft⟩
          cases hchunk
          exact ⟨run, _, rfl, hrun, hleft⟩
        · rintro ⟨run, rest, rfl, hrun, hrest⟩
          exact ⟨run, rest, rest, rfl, nofun, hrun, rfl, hrest⟩
      | cons c cs =>
        obtain ⟨star, chunk⟩ := c
        constructor
        · rintro ⟨run, tail, left, rfl, -, hrun, hchunk, hleft⟩
          exact ⟨run, tail, rfl, hrun, [], tail, left, rfl, fun _ => rfl, nofun, hchunk, hleft⟩
        · rintro ⟨run, _, rfl, hrun, run', tail, left, rfl, -, hrun', hchunk, hleft⟩
          refine ⟨run ++ run', tail, left, by rw [List.append_assoc], nofun, ?_, hchunk, hleft⟩
          rw [List.mem_append]
          exact fun h => h.elim hrun hrun'
    | one s =>
      have hone : Matches (.one s :: ts) name ↔
          ∃ c rest, name = c :: rest ∧ s.accepts c = true ∧ ChunksMatch (chunks ts) rest := by
        simp only [ih]
        exact Iff.rfl
      have hnew : ∀ rest, ChunksMatch ((false, [s]) :: rest) name ↔
          ∃ c tail, name = c :: tail ∧ s.accepts c = true ∧ ChunksMatch rest tail := by
        intro rest
        constructor
        · rintro ⟨run, tail, left, rfl, hrun, -, hchunk, hleft⟩
          obtain ⟨c, _, rfl, hc, hrest⟩ := matchChunk_cons.mp hchunk
          cases hrest
          rw [hrun rfl]
          exact ⟨c, _, rfl, hc, hleft⟩
        · rintro ⟨c, tail, rfl, hc, htail⟩
          exact ⟨[], c :: tail, tail, rfl, fun _ => rfl, nofun,
            matchChunk_cons.mpr ⟨c, tail, rfl, hc, rfl⟩, htail⟩
      rw [hone, chunks]
      cases hts : chunks ts with
      | nil => exact hnew []
      | cons c cs =>
        obtain ⟨star, chunk⟩ := c
        cases star with
        | true => exact hnew ((true, chunk) :: cs)
        | false =>
          constructor
          · rintro ⟨run, tail, left, rfl, hrun, -, hchunk, hleft⟩
            obtain ⟨c, rest, rfl, hc, hrest⟩ := matchChunk_cons.mp hchunk
            rw [hrun rfl]
            exact ⟨c, rest, rfl, hc, [], rest, left, rfl, fun _ => rfl, nofun, hrest, hleft⟩
          · rintro ⟨c, _, rfl, hc, run, tail, left, rfl, hrun, -, hchunk, hleft⟩
            rw [hrun rfl, List.nil_append]
            exact ⟨[], c :: tail, left, rfl, fun _ => rfl, nofun,
              matchChunk_cons.mpr ⟨c, tail, rfl, hc, hchunk⟩, hleft⟩

def Wf : List (Bool × List Single) → Prop
  | [] => True
  | (star, chunk) :: rest =>
    (chunk = [] → star = true ∧ rest = []) ∧ (∀ c ∈ rest.head?, c.1 = true) ∧ Wf rest

theorem wf_chunks (ts : List Tok) : Wf (chunks ts) := by
  induction ts with
  | nil => trivial
  | cons t ts ih =>
    cases t with
    | star =>
      rw [chunks]
      cases hts : chunks ts with
      | nil => exact ⟨fun _ => ⟨rfl, rfl⟩, nofun, trivial⟩
      | cons c cs =>
        rw [hts] at ih
        exact ⟨fun hnil => ⟨rfl, (ih.1 hnil).2⟩, ih.2⟩
    | one s =>
      rw [chunks]
      cases hts : chunks ts with
      | nil => exact ⟨nofun, nofun, trivial⟩
      | cons c cs =>
        rw [hts] at ih
        obtain ⟨star, chunk⟩ := c
        cases star with
        | true => exact ⟨nofun, fun c hc => by cases hc; rfl, ih⟩
        | false => exact ⟨nofun, ih.2⟩

theorem matchChunk_some {chunk : List Single} {name left : List Char}
    (h : matchChunk chunk name = some left) :
    ∃ hit, name = hit ++ left ∧ hit.length = chunk.length ∧
      ((∀ s ∈ chunk, s.accepts '/' = false) → '/' ∉ hit) := by
  induction chunk generalizing name with
  | nil =>
    cases h
    exact ⟨[], rfl, rfl, nofun⟩
  | cons s chunk ih =>
    obtain ⟨c, rest, rfl, hc, hrest⟩ := matchChunk_cons.mp h
    obtain ⟨hit, rfl, hlen, hno⟩ := ih hrest
    refine ⟨c :: hit, rfl, by rw [List.length_cons, List.length_cons, hlen], fun hsafe => ?_⟩
    rintro (_ | ⟨_, hmem⟩)
    · rw [hsafe s List.mem_cons_self] at hc
      cases hc
    · exact hno (fun s hs => hsafe s (List.mem_cons_of_mem _ hs)) hmem

theorem takeWhile_of_matchChunk {chunk : List Single} {name left : List Char}
    (hsafe : ∀ s ∈ chunk, s.accepts '/' = true → s = .lit '/') (hmem : .lit '/' ∈ chunk)
    (h : matchChunk chunk name = some left) :
    (name.takeWhile (· ≠ '/')).length = (chunk.takeWhile (· ≠ .lit '/')).length := by
  induction chunk generalizing name with
  | nil => cases hmem
  | cons s chunk ih =>
    obtain ⟨c, rest, rfl, hc, hrest⟩ := matchChunk_cons.mp h
    by_cases hs : s = .lit '/'
    · subst hs
      have hslash : c = '/' := of_decide_eq_true hc
      simp [hslash]
    · have hslash : c ≠ '/' := by
        rintro rfl
        exact hs (hsafe s List.mem_cons_self hc)
      have htail := ih (fun s hs => hsafe s (List.mem_cons_of_mem _ hs))
        ((List.mem_cons.mp hmem).resolve_left fun h => hs h.symm) hrest
      rw [List.takeWhile_cons_of_pos (by simpa using hslash),
        List.takeWhile_cons_of_pos (by simpa using hs), List.length_cons, List.length_cons, htail]

theorem matchChunk_earlier {chunk : List Single} {gap name left left' : List Char}
    (hsafe : ∀ s ∈ chunk, s.accepts '/' = true → s = .lit '/') (hgap : '/' ∉ gap)
    (h : matchChunk chunk (gap ++ name) = some left) (h' : matchChunk chunk name = some left') :
    ∃ more, left = more ++ left' ∧ '/' ∉ more := by
  obtain ⟨hit, hname, hlen, -⟩ := matchChunk_some h
  obtain ⟨hit', rfl, hlen', hno⟩ := matchChunk_some h'
  by_cases hslash : .lit '/' ∈ chunk
  · -- both places have the first separator of the name at the same distance
    have hfirst := takeWhile_of_matchChunk hsafe hslash h
    have hfirst' := takeWhile_of_matchChunk hsafe hslash h'
    rw [List.takeWhile_append_of_pos (fun c hc => by simpa using fun heq : c = '/' => hgap (heq ▸ hc)),
      List.length_append, hfirst'] at hfirst
    have hnil : gap = [] := List.length_eq_zero_iff.mp (by omega)
    rw [hnil, List.nil_append] at hname
    obtain ⟨-, hleft⟩ := List.append_inj hname (hlen'.trans hlen.symm)
    exact ⟨[], hleft.symm, nofun⟩
  · have hfree : '/' ∉ hit' := hno fun s hs => by
      by_contra haccepts
      have heq := hsafe s hs (by simpa using haccepts)
      exact hslash (heq ▸ hs)
    rw [← List.append_assoc] at hname
    have hle : hit.length ≤ (gap ++ hit').length := by
      rw [List.length_append]
      omega
    rcases List.append_eq_append_iff.mp hname with ⟨none, hhit, hleft⟩ | ⟨more, hmore, hleft⟩
    · have hnil : none = [] := by
        rw [hhit, List.length_append] at hle
        exact List.length_eq_zero_iff.mp (by omega)
      rw [hnil, List.nil_append] at hleft
      exact ⟨[], hleft.symm, nofun⟩
    · refine ⟨more, hleft, fun hmem => ?_⟩
      have hmem' : '/' ∈ gap ++ hit' := by
        rw [hmore]
        exact List.mem_append_right _ hmem
      exact (List.mem_append.mp hmem').elim hgap hfree

theorem findChunk_some {star last : Bool} {chunk : List Single} {name left : List Char}
    (h : findChunk star last chunk name = some left) :
    ∃ run tail, name = run ++ tail ∧ (star = false → run = []) ∧ '/' ∉ run ∧
      matchChunk chunk tail = some left ∧ (last = true → left = []) := by
  induction name with
  | nil =>
    obtain ⟨hchunk, hlast⟩ := Option.filter_eq_some_iff.mp h
    exact ⟨[], [], rfl, fun _ => rfl, nofun, hchunk, fun hl => by simpa [hl] using hlast⟩
  | cons c name ih =>
    rw [findChunk] at h
    split at h
    · rename_i rest hrest
      cases h
      obtain ⟨hchunk, hlast⟩ := Option.filter_eq_some_iff.mp hrest
      exact ⟨[], c :: name, rfl, fun _ => rfl, nofun, hchunk, fun hl => by simpa [hl] using hlast⟩
    · split at h
      · rename_i hskip
        obtain ⟨run, tail, rfl, -, hrun, hchunk, hlast⟩ := ih h
        refine ⟨c :: run, tail, rfl, fun hfalse => ?_, ?_, hchunk, hlast⟩
        · rw [hskip.1] at hfalse
          cases hfalse
        · rintro (_ | ⟨_, hmem⟩)
          · exact hskip.2 rfl
          · exact hrun hmem
      · cases h

theorem findChunk_of_place {star last : Bool} {chunk : List Single} {run tail left : List Char}
    (hstar : star = false → run = []) (hrun : '/' ∉ run) (hchunk : matchChunk chunk tail = some left)
    (hlast : last = true → left = []) :
    ∃ run' gap left', run = run' ++ gap ∧ matchChunk chunk (gap ++ tail) = some left' ∧
      findChunk star last chunk (run ++ tail) = some left' := by
  induction run with
  | nil =>
    have hhere : (matchChunk chunk tail).filter (fun rest => ¬ last ∨ rest = []) = some left := by
      refine Option.filter_eq_some_iff.mpr ⟨hchunk, ?_⟩
      cases last with
      | false => rfl
      | true => simp [hlast rfl]
    refine ⟨[], [], left, rfl, hchunk, ?_⟩
    cases tail with
    | nil => exact hhere
    | cons c tail => rw [List.nil_append, findChunk, hhere]
  | cons c run ih =>
    cases star with
    | false => cases hstar rfl
    | true =>
      have hc : c ≠ '/' := fun heq => hrun (heq ▸ List.mem_cons_self)
      rw [List.cons_append, findChunk]
      split
      · rename_i rest hrest
        obtain ⟨hhere, -⟩ := Option.filter_eq_some_iff.mp hrest
        exact ⟨[], c :: run, rest, rfl, hhere, rfl⟩
      · rw [if_pos ⟨rfl, hc⟩]
        obtain ⟨run', gap, left', rfl, hplace, hfind⟩ := ih nofun fun hmem => hrun (List.mem_cons_of_mem _ hmem)
        exact ⟨c :: run', gap, left', rfl, hplace, hfind⟩

theorem matchChunks_iff {cs : List (Bool × List Single)} (hwf : Wf cs)
    (hsafe : ∀ c ∈ cs, ∀ s ∈ c.2, s.accepts '/' = true → s = .lit '/') {name : List Char} :
    matchChunks cs name = true ↔ ChunksMatch cs name := by
  induction cs generalizing name with
  | nil => simp [matchChunks, ChunksMatch]
  | cons c rest ih =>
    obtain ⟨star, chunk⟩ := c
    have ih' : ∀ {name}, matchChunks rest name = true ↔ ChunksMatch rest name :=
      ih hwf.2.2 fun c hc => hsafe c (List.mem_cons_of_mem _ hc)
    rw [matchChunks]
    by_cases hend : star = true ∧ chunk = []
    · obtain ⟨rfl, rfl⟩ := hend
      obtain ⟨-, rfl⟩ := hwf.1 rfl
      rw [if_pos ⟨rfl, rfl⟩, decide_eq_true_iff]
      constructor
      · intro hname
        exact ⟨name, [], [], (List.append_nil name).symm, nofun, hname, rfl, rfl⟩
      · rintro ⟨run, tail, left, rfl, -, hrun, hchunk, hleft⟩
        cases hchunk
        rw [show tail = [] from hleft, List.append_nil]
        exact hrun
    rw [if_neg hend]
    constructor
    · intro h
      cases hfind : findChunk star rest.isEmpty chunk name with
      | none =>
        rw [hfind] at h
        cases h
      | some left =>
        rw [hfind] at h
        obtain ⟨run, tail, hname, hstar, hrun, hchunk, -⟩ := findChunk_some hfind
        exact ⟨run, tail, left, hname, hstar, hrun, hchunk, ih'.mp h⟩
    · rintro ⟨run, tail, left, rfl, hstar, hrun, hchunk, hleft⟩
      have hlast : rest.isEmpty = true → left = [] := by
        intro hempty
        rw [List.isEmpty_iff.mp hempty] at hleft
        exact hleft
      obtain ⟨run', gap, left', rfl, hplace, hfind⟩ := findChunk_of_place hstar hrun hchunk hlast
      have hgap : '/' ∉ gap := fun hmem => hrun (List.mem_append_right _ hmem)
      obtain ⟨more, rfl, hmore⟩ := matchChunk_earlier (hsafe _ List.mem_cons_self) hgap hplace hchunk
      rw [hfind]
      refine ih'.mpr ?_
      -- a star takes up what the earlier place leaves more
      cases rest with
      | nil =>
        obtain ⟨-, -, -, -, -, -, hnil⟩ := findChunk_some hfind
        exact hnil rfl
      | cons c rest =>
        obtain ⟨star', chunk'⟩ := c
        obtain ⟨run₁, tail₁, left₁, rfl, -, hrun₁, hchunk₁, hleft₁⟩ := hleft
        have hstar' : star' = true := hwf.2.1 (star', chunk') rfl
        refine ⟨more ++ run₁, tail₁, left₁, by rw [List.append_assoc], fun hfalse => ?_, ?_, hchunk₁, hleft₁⟩
        · rw [hstar'] at hfalse
          cases hfalse
        · rw [List.mem_append]
          exact fun h => h.elim hmore hrun₁

theorem mem_chunks {ts : List Tok} {c : Bool × List Single} {s : Single} (hc : c ∈ chunks ts)
    (hs : s ∈ c.2) : .one s ∈ ts := by
  induction ts generalizing c s with
  | nil => cases hc
  | cons t ts ih =>
    cases t with
    | star =>
      refine List.mem_cons_of_mem _ ?_
      rw [chunks] at hc
      cases hts : chunks ts with
      | nil =>
        rw [hts] at hc
        rw [List.mem_singleton.mp hc] at hs
        cases hs
      | cons d ds =>
        rw [hts] at hc
        rcases List.mem_cons.mp hc with rfl | hc
        · exact ih (c := d) (hts ▸ List.mem_cons_self) hs
        · exact ih (hts ▸ List.mem_cons_of_mem _ hc) hs
    | one s' =>
      -- a chunk of the rest, or the new one with what it took over of the rest's first
      have hnew : ∀ chunk rest, (∀ s ∈ chunk, .one s ∈ ts) → (∀ d ∈ rest, d ∈ chunks ts) →
          c ∈ (false, s' :: chunk) :: rest → .one s ∈ .one s' :: ts := by
        intro chunk rest hchunk hrest hc
        rcases List.mem_cons.mp hc with rfl | hc
        · rcases List.mem_cons.mp hs with rfl | hs
          · exact List.mem_cons_self
          · exact List.mem_cons_of_mem _ (hchunk s hs)
        · exact List.mem_cons_of_mem _ (ih (hrest c hc) hs)
      rw [chunks] at hc
      cases hts : chunks ts with
      | nil =>
        rw [hts] at hc
        exact hnew [] [] nofun nofun hc
      | cons d ds =>
        obtain ⟨star, chunk⟩ := d
        rw [hts] at hc
        cases star with
        | true => exact hnew [] _ nofun (fun d hd => hts ▸ hd) hc
        | false =>
          exact hnew chunk ds (fun s hs => ih (hts ▸ List.mem_cons_self) hs)
            (fun d hd => hts ▸ List.mem_cons_of_mem _ hd) hc

theorem pathMatch_iff {pattern name : List Char} {ts : List Tok} (hparse : parse pattern = some ts)
    (hsafe : Safe ts) : pathMatch pattern name = some true ↔ Matches ts name := by
  rw [pathMatch, hparse, Option.map_some, Option.some_inj,
    matchChunks_iff (wf_chunks ts) fun c hc s hs => hsafe s (mem_chunks hc hs)]
  exact chunksMatch_chunks

theorem step_lit {m : Mode} {c : Char} {r : List Tok × Mode} (h : step m c = some r) {d : Char}
    (hd : .one (.lit d) ∈ r.1) : d = c := by
  have hlow : ∀ negated ranges, stepLow negated ranges c = some r → d = c := by
    intro negated ranges h
    unfold stepLow at h
    split at h
    · cases h
      cases List.mem_singleton.mp hd
    split at h
    · cases h
    split at h
    · cases h
      cases hd
    · cases h
      cases hd
  cases m with
  | text =>
    simp only [step] at h
    split at h
    · cases h
      cases List.mem_singleton.mp hd
    split at h
    · cases h
      cases List.mem_singleton.mp hd
    split at h
    · cases h
      cases hd
    split at h
    · cases h
      cases hd
    · cases h
      cases List.mem_singleton.mp hd
      rfl
  | escaped =>
    cases h
    cases List.mem_singleton.mp hd
    rfl
  | opened =>
    simp only [step] at h
    split at h
    · cases h
      cases hd
    · exact hlow _ _ h
  | low negated ranges => exact hlow _ _ h
  | lowEscaped negated ranges =>
    cases h
    cases hd
  | after negated ranges lo =>
    simp only [step] at h
    split at h
    · cases h
      cases hd
    · exact hlow _ _ h
  | high negated ranges lo =>
    simp only [step] at h
    split at h
    · cases h
    split at h
    · cases h
      cases hd
    · cases h
      cases hd
  | highEscaped negated ranges lo =>
    cases h
    cases hd

@[grind =] theorem tokens_cons {m : Mode} {c : Char} {s : List Char} {ts : List Tok} :
    tokens m (c :: s) = some ts ↔
      ∃ r us, step m c = some r ∧ tokens r.2 s = some us ∧ ts = r.1 ++ us := by
  cases m <;>
  · rw [tokens, Option.bind_eq_some_iff]
    constructor
    · rintro ⟨r, hr, h⟩
      obtain ⟨us, hus, rfl⟩ := Option.map_eq_some_iff.mp h
      exact ⟨r, us, hr, hus, rfl⟩
    · rintro ⟨r, us, hr, hus, rfl⟩
      exact ⟨r, hr, Option.map_eq_some_iff.mpr ⟨us, hus, rfl⟩⟩

theorem mem_of_tokens {m : Mode} {s : List Char} {ts : List Tok} (h : tokens m s = some ts)
    {d : Char} (hd : .one (.lit d) ∈ ts) : d ∈ s := by
  induction s generalizing m ts with
  | nil =>
    cases m with
    | text =>
      cases h
      cases hd
    | _ => cases h
  | cons c s ih =>
    obtain ⟨r, us, hr, hus, rfl⟩ := tokens_cons.mp h
    rcases List.mem_append.mp hd with hd | hd
    · exact step_lit hr hd ▸ List.mem_cons_self
    · exact List.mem_cons_of_mem _ (ih hus hd)

theorem tokens_slash {m : Mode} {s rest : List Char} {ts us : List Tok} (h : tokens m s = some ts)
    (hrest : parse rest = some us) :
    tokens m (s ++ '/' :: rest) = some (ts ++ .one (.lit '/') :: us) := by
  induction s generalizing m ts with
  | nil =>
    cases m with
    | text =>
      cases h
      exact tokens_cons.mpr ⟨_, us, rfl, hrest, rfl⟩
    | _ => cases h
  | cons c s ih =>
    obtain ⟨r, ts', hr, hts', rfl⟩ := tokens_cons.mp h
    exact tokens_cons.mpr ⟨r, _, hr, ih hts', List.append_assoc ..⟩

def SafePattern (pattern : List Char) : Prop := ∃ ts, parse pattern = some ts ∧ Safe ts

theorem accepts_of_safe {seg : List Char} {ts : List Tok} (hparse : parse seg = some ts)
    (hsafe : Safe ts) (hseg : '/' ∉ seg) : ∀ s, .one s ∈ ts → s.accepts '/' = false := by
  intro s hs
  by_contra haccepts
  have hlit := hsafe s hs (by simpa using haccepts)
  exact hseg (mem_of_tokens hparse (hlit ▸ hs))

theorem matches_slash {ts us : List Tok} {name rest : List Char}
    (hts : ∀ s, .one s ∈ ts → s.accepts '/' = false) (hname : '/' ∉ name) :
    Matches (ts ++ .one (.lit '/') :: us) (name ++ '/' :: rest) ↔ Matches ts name ∧ Matches us rest := by
  rw [matches_append]
  constructor
  · rintro ⟨x, _, heq, hx, c, y, rfl, hc, hy⟩
    obtain rfl : c = '/' := of_decide_eq_true hc
    obtain ⟨rfl, rfl⟩ := cut_unique hname (not_mem_of_matches hts hx) heq
    exact ⟨hx, hy⟩
  · rintro ⟨hx, hy⟩
    exact ⟨name, '/' :: rest, rfl, hx, '/', rest, rfl, by decide, hy⟩

theorem safePattern_joined {segs : List (List Char)} (hsegs : ∀ seg ∈ segs, SafePattern seg) :
    SafePattern (joined segs) := by
  induction segs with
  | nil => exact ⟨[], rfl, nofun⟩
  | cons seg segs ih =>
    obtain ⟨ts, hts, hsafe⟩ := hsegs seg List.mem_cons_self
    cases segs with
    | nil =>
      rw [joined_cons, slashed, List.flatMap_nil, List.append_nil]
      exact ⟨ts, hts, hsafe⟩
    | cons next segs =>
      obtain ⟨us, hus, hsafe'⟩ := ih fun seg hseg => hsegs seg (List.mem_cons_of_mem _ hseg)
      rw [joined_cons, slashed_cons, ← joined_cons]
      refine ⟨_, tokens_slash hts hus, fun s hs haccepts => ?_⟩
      rcases List.mem_append.mp hs with hs | hs
      · exact hsafe s hs haccepts
      · rcases List.mem_cons.mp hs with hs | hs
        · exact (Tok.one.inj hs)
        · exact hsafe' s hs haccepts

theorem pathMatch_joined {segs names : List (List Char)} (hsegs : ∀ seg ∈ segs, SafePattern seg)
    (hplain : Plain segs) (hnames : Plain names) (hne : segs ≠ []) (hnne : names ≠ []) :
    pathMatch (joined segs) (joined names) = some true ↔
      List.Forall₂ (fun seg name => pathMatch seg name = some true) segs names := by
  induction segs generalizing names with
  | nil => exact absurd rfl hne
  | cons seg segs ih =>
    obtain ⟨ts, hts, hsafe⟩ := hsegs seg List.mem_cons_self
    have hrest : ∀ seg ∈ segs, SafePattern seg := fun seg hseg => hsegs seg (List.mem_cons_of_mem _ hseg)
    have haccepts := accepts_of_safe hts hsafe (hplain seg List.mem_cons_self)
    obtain ⟨name, names, rfl⟩ := List.exists_cons_of_ne_nil hnne
    have hname := hnames name List.mem_cons_self
    rw [List.forall₂_cons]
    cases segs with
    | nil =>
      rw [joined_cons, slashed, List.flatMap_nil, List.append_nil]
      cases names with
      | nil =>
        rw [joined_cons, slashed, List.flatMap_nil, List.append_nil]
        exact ⟨fun h => ⟨h, .nil⟩, fun h => h.1⟩
      | cons next names =>
        refine iff_of_false (fun h => ?_) fun h => by cases h.2
        rw [pathMatch_iff hts hsafe, joined_cons, slashed_cons] at h
        exact not_mem_of_matches haccepts h (List.mem_append_right _ List.mem_cons_self)
    | cons next segs =>
      obtain ⟨us, hus, hsafe'⟩ := safePattern_joined hrest
      obtain ⟨ws, hws, hsafe''⟩ := safePattern_joined hsegs
      have hwhole : ws = ts ++ .one (.lit '/') :: us := by
        rw [joined_cons, slashed_cons, ← joined_cons, parse, tokens_slash hts hus] at hws
        exact (Option.some.inj hws).symm
      rw [pathMatch_iff hws hsafe'', hwhole]
      cases names with
      | nil =>
        refine iff_of_false (fun h => ?_) fun h => by cases h.2
        rw [joined_cons, slashed, List.flatMap_nil, List.append_nil] at h
        obtain ⟨x, _, rfl, -, c, y, rfl, hc, -⟩ := matches_append.mp h
        obtain rfl : c = '/' := of_decide_eq_true hc
        exact hname (List.mem_append_right _ List.mem_cons_self)
      | cons next' names =>
        rw [joined_cons, slashed_cons, ← joined_cons, matches_slash haccepts hname,
          ← pathMatch_iff hts hsafe, ← pathMatch_iff hus hsafe',
          ih hrest hplain.tail hnames.tail (by simp) (by simp)]

def Literal (seg : List Char) : Prop := seg ≠ [] ∧ ∀ c ∈ seg, c ∉ ['*', '?', '[', '\\']

instance (seg : List Char) : Decidable (Literal seg) := inferInstanceAs (Decidable (_ ∧ _))

theorem parse_literal {seg : List Char} (h : ∀ c ∈ seg, c ∉ ['*', '?', '[', '\\']) :
    parse seg = some (seg.map fun c => .one (.lit c)) := by
  induction seg with
  | nil => rfl
  | cons c seg ih =>
    have hc := h c List.mem_cons_self
    simp only [List.mem_cons, List.not_mem_nil, or_false, not_or] at hc
    refine tokens_cons.mpr ⟨([.one (.lit c)], .text), _, ?_, ih fun d hd => h d (List.mem_cons_of_mem _ hd), rfl⟩
    simp [step, hc]

theorem safe_literal (seg : List Char) : Safe (seg.map fun c => .one (.lit c)) := by
  intro s hs haccepts
  obtain ⟨c, -, hc⟩ := List.mem_map.mp hs
  rw [← Tok.one.inj hc] at haccepts ⊢
  exact congrArg Single.lit (of_decide_eq_true haccepts).symm

theorem matches_literal {seg name : List Char} :
    Matches (seg.map fun c => .one (.lit c)) name ↔ name = seg := by
  induction seg generalizing name with
  | nil => exact Iff.rfl
  | cons c seg ih =>
    constructor
    · rintro ⟨d, rest, rfl, hd, hrest⟩
      rw [ih.mp hrest, of_decide_eq_true hd]
    · rintro rfl
      exact ⟨c, seg, rfl, decide_eq_true rfl, ih.mpr rfl⟩

theorem pathMatch_literal {seg name : List Char} (h : Literal seg) :
    pathMatch seg name = some true ↔ name = seg := by
  rw [pathMatch_iff (parse_literal h.2) (safe_literal seg), matches_literal]

theorem pathMatch_self {t : List Char} (hcls : '[' ∉ t) (hesc : '\\' ∉ t) : pathMatch t t = some true := by
  have hself : ∃ ts, parse t = some ts ∧ Safe ts ∧ Matches ts t := by
    induction t with
    | nil => exact ⟨[], rfl, nofun, rfl⟩
    | cons c t ih =>
      obtain ⟨ts, hts, hsafe, hmatches⟩ := ih (fun h => hcls (List.mem_cons_of_mem _ h))
        fun h => hesc (List.mem_cons_of_mem _ h)
      have hc : c ≠ '[' := fun heq => hcls (heq ▸ List.mem_cons_self)
      have hc' : c ≠ '\\' := fun heq => hesc (heq ▸ List.mem_cons_self)
      by_cases hstar : c = '*'
      · refine ⟨.star :: ts, tokens_cons.mpr ⟨([.star], .text), ts, by rw [hstar]; rfl, hts, rfl⟩, ?_,
          [c], t, rfl, by simp [hstar], hmatches⟩
        intro s hs
        exact hsafe s ((List.mem_cons.mp hs).resolve_left nofun)
      by_cases hany : c = '?'
      · refine ⟨.one .any :: ts, tokens_cons.mpr ⟨([.one .any], .text), ts, by rw [hany]; rfl, hts, rfl⟩, ?_,
          c, t, rfl, by rw [hany]; rfl, hmatches⟩
        intro s hs haccepts
        rcases List.mem_cons.mp hs with heq | hs
        · cases heq
          cases haccepts
        · exact hsafe s hs haccepts
      refine ⟨.one (.lit c) :: ts, tokens_cons.mpr ⟨([.one (.lit c)], .text), ts, ?_, hts, rfl⟩, ?_,
        c, t, rfl, decide_eq_true rfl, hmatches⟩
      · simp [step, hstar, hany, hc, hc']
      intro s hs haccepts
      rcases List.mem_cons.mp hs with heq | hs
      · cases heq
        exact congrArg Single.lit (of_decide_eq_true haccepts).symm
      · exact hsafe s hs haccepts
  obtain ⟨ts, hts, hsafe, hmatches⟩ := hself
  exact (pathMatch_iff hts hsafe).mpr hmatches

end ProxBack.Lib.Glob
