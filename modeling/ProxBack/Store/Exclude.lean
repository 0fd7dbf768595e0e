import ProxBack.Lib.Glob
import ProxBack.Lib.Text

/-! The exclusion patterns of a job's policy, as the server checks and defines them. -/
namespace ProxBack.Store
open Lib Glob Text

def doubleStar : List Char := ['*', '*']

inductive GlobErr where
  | empty
  | invalid (pattern : List Char)
deriving DecidableEq

def validateGlob (pattern : List Char) : Except GlobErr Unit :=
  if trimSpace pattern = [] then .error .empty
  else if ((toSlashes pattern).splitOn '/').all fun segment =>
      segment = doubleStar ∨ segment = [] ∨ (pathMatch segment "probe".toList).isSome then .ok ()
  else .error (.invalid pattern)

def firstMatch {α : Type} (f : α → Option Bool) : List α → Option Bool
  | [] => some false
  | x :: xs =>
    match f x with
    | some false => firstMatch f xs
    | answer => answer

/-- Nothing is `ErrBadPattern`. -/
def matchSegments : List (List Char) → List (List Char) → Option Bool
  | [], _ => some true
  | segment :: rest, path =>
    if segment = doubleStar then
      if rest = [] then some true else firstMatch (matchSegments rest) path.tails
    else
      match path with
      | [] => some false
      | name :: path =>
        match pathMatch segment name with
        | some true => matchSegments rest path
        | answer => answer

/-- What `MatchGlob` splits into segments. -/
def globText (s : List Char) : List Char := trimOf ['/'] (toSlashes s)

def matchGlob (pattern path : List Char) : Option Bool :=
  matchSegments ((globText pattern).splitOn '/') ((globText path).splitOn '/')

example : matchGlob "**/node_modules".toList "srv/app/node_modules/react/index.js".toList = some true := by
  decide +kernel

example : matchGlob "*.tmp".toList "srv/scratch.tmp".toList = some false := by decide +kernel

theorem mem_splitOn_trimOf {s part : List Char} (h : part ∈ (trimOf ['/'] s).splitOn '/') :
    part ∈ s.splitOn '/' := by
  have hdrop : ∀ s : List Char, part ∈ (s.dropWhile (· ∈ ['/'])).splitOn '/' → part ∈ s.splitOn '/' := by
    intro s h
    induction s with
    | nil => exact h
    | cons c s ih =>
      by_cases hc : c = '/'
      · rw [List.dropWhile_cons_of_pos (by simp [hc])] at h
        rw [hc, List.splitOn_cons_eq_if_modifyHead, if_pos (by rfl)]
        exact List.mem_cons_of_mem _ (ih h)
      · rwa [List.dropWhile_cons_of_neg (by simp [hc])] at h
  refine hdrop s ?_
  rw [trimOf] at h
  generalize s.dropWhile (· ∈ ['/']) = t at h ⊢
  induction t using List.reverseRecOn with
  | nil => exact h
  | append_singleton t c ih =>
    by_cases hc : c = '/'
    · rw [List.rdropWhile_concat_pos _ _ _ (by simp [hc])] at h
      rw [hc, List.splitOn_append_cons_self]
      exact List.mem_append_left _ (ih h)
    · rwa [List.rdropWhile_concat_neg _ _ _ (by simp [hc])] at h

theorem parse_of_validateGlob {pattern : List Char} (h : validateGlob pattern = .ok ()) :
    ∀ seg ∈ (globText pattern).splitOn '/', (parse seg).isSome := by
  intro seg hseg
  unfold validateGlob at h
  split at h
  · cases h
  split at h
  · rename_i hall
    have hok := List.all_eq_true.mp hall seg (mem_splitOn_trimOf hseg)
    rcases of_decide_eq_true hok with rfl | rfl | hmatch
    · decide
    · decide
    · cases hparse : parse seg with
      | some ts => rfl
      | none =>
        rw [pathMatch, hparse] at hmatch
        cases hmatch
  · cases h

theorem ne_nil_of_validateGlob {pattern : List Char} (h : validateGlob pattern = .ok ()) :
    trimSpace pattern ≠ [] := by
  intro hblank
  rw [validateGlob, if_pos hblank] at h
  cases h

section Segments

variable {seg : List Char} {segs path : List (List Char)}

theorem pathMatch_isSome (h : (parse seg).isSome) (name : List Char) : ∃ b, pathMatch seg name = some b := by
  obtain ⟨ts, hts⟩ := Option.isSome_iff_exists.mp h
  exact ⟨_, by rw [pathMatch, hts, Option.map_some]⟩

theorem firstMatch_isSome {α : Type} {f : α → Option Bool} (hf : ∀ x, ∃ b, f x = some b) (xs : List α) :
    ∃ b, firstMatch f xs = some b := by
  induction xs with
  | nil => exact ⟨false, rfl⟩
  | cons x xs ih =>
    obtain ⟨_ | _, hb⟩ := hf x
    · rw [firstMatch, hb]
      exact ih
    · exact ⟨true, by rw [firstMatch, hb]⟩

theorem firstMatch_iff {α : Type} {f : α → Option Bool} (hf : ∀ x, ∃ b, f x = some b) (xs : List α) :
    firstMatch f xs = some true ↔ ∃ x ∈ xs, f x = some true := by
  induction xs with
  | nil => exact iff_of_false nofun fun ⟨_, hx, _⟩ => nomatch hx
  | cons x xs ih =>
    rw [List.exists_mem_cons_iff, ← ih]
    obtain ⟨_ | _, hb⟩ := hf x <;> simp [firstMatch, hb]

theorem matchSegments_double (segs path : List (List Char)) :
    matchSegments (doubleStar :: segs) path =
      if segs = [] then some true else firstMatch (matchSegments segs) path.tails := by
  cases path <;> exact if_pos rfl

@[simp] theorem matchSegments_nil (path : List (List Char)) : matchSegments [] path = some true := by
  cases path <;> rfl

@[simp]
theorem matchSegments_cons_nil (h : seg ≠ doubleStar) : matchSegments (seg :: segs) [] = some false :=
  if_neg h

@[grind =] theorem matchSegments_step {name : List Char} (h : seg ≠ doubleStar) :
    matchSegments (seg :: segs) (name :: path) =
      match pathMatch seg name with
      | some true => matchSegments segs path
      | answer => answer := if_neg h

theorem matchSegments_isSome (h : ∀ seg ∈ segs, (parse seg).isSome) (path : List (List Char)) :
    ∃ b, matchSegments segs path = some b := by
  induction segs generalizing path with
  | nil => exact ⟨true, rfl⟩
  | cons seg rest ih =>
    have ih' := ih fun seg hseg => h seg (List.mem_cons_of_mem _ hseg)
    by_cases hseg : seg = doubleStar
    · rw [hseg, matchSegments_double]
      split
      · exact ⟨true, rfl⟩
      · exact firstMatch_isSome ih' _
    · cases path with
      | nil => exact ⟨false, matchSegments_cons_nil hseg⟩
      | cons name path =>
        rw [matchSegments_step hseg]
        obtain ⟨_ | _, hb⟩ := pathMatch_isSome (h seg List.mem_cons_self) name
        · exact ⟨false, by simp only [hb]⟩
        · simp only [hb]
          exact ih' path

theorem matchSegments_star (h : ∀ seg ∈ segs, (parse seg).isSome) :
    matchSegments (doubleStar :: segs) path = some true ↔
      ∃ tail, tail <:+ path ∧ matchSegments segs tail = some true := by
  rw [matchSegments_double]
  split
  · rename_i hnil
    exact iff_of_true rfl ⟨path, List.suffix_rfl, by rw [hnil, matchSegments_nil]⟩
  · rw [firstMatch_iff (matchSegments_isSome h)]
    simp only [List.mem_tails]

@[grind =] theorem matchSegments_cons {name : List Char} (h : seg ≠ doubleStar) :
    matchSegments (seg :: segs) (name :: path) = some true ↔
      pathMatch seg name = some true ∧ matchSegments segs path = some true := by
  rw [matchSegments_step h]
  cases hmatch : pathMatch seg name with
  | none => simp
  | some b => cases b <;> simp

@[grind =] theorem matchSegments_iff (h : ∀ seg ∈ segs, seg ≠ doubleStar) :
    matchSegments segs path = some true ↔
      ∃ a b, path = a ++ b ∧ List.Forall₂ (fun seg name => pathMatch seg name = some true) segs a := by
  induction segs generalizing path with
  | nil => exact iff_of_true (matchSegments_nil path) ⟨[], path, rfl, .nil⟩
  | cons seg segs ih =>
    have hseg := h seg List.mem_cons_self
    cases path with
    | nil =>
      rw [matchSegments_cons_nil hseg]
      refine iff_of_false nofun ?_
      rintro ⟨a, b, hab, hmatch⟩
      obtain ⟨rfl, -⟩ := List.append_eq_nil_iff.mp hab.symm
      cases hmatch
    | cons name path =>
      rw [matchSegments_cons hseg, ih fun seg hs => h seg (List.mem_cons_of_mem _ hs)]
      constructor
      · rintro ⟨hname, a, b, rfl, hmatch⟩
        exact ⟨name :: a, b, rfl, .cons hname hmatch⟩
      · rintro ⟨a, b, hab, hmatch⟩
        cases hmatch with
        | cons hname hrest =>
          obtain ⟨rfl, rfl⟩ := List.cons.inj hab
          exact ⟨hname, _, b, rfl, hrest⟩

end Segments

end ProxBack.Store
