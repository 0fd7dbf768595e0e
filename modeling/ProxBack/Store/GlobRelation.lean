import ProxBack.Store.Exclude

/-! What it is for a path to be excluded by a pattern, and that the matcher, which goes back to
every place a double star can end at, decides it. -/
namespace ProxBack.Store
open Lib Glob Text

/-- What a segment of a pattern takes of a path: a double star any run of segments, another one
a single segment. -/
def Takes (segment : List Char) (run : List (List Char)) : Prop :=
  segment = doubleStar ∨ ∃ name, run = [name] ∧ pathMatch segment name = some true

/-- The first segments of the path, as many as it takes, are split between those of the pattern. -/
def Excludes (pattern path : List (List Char)) : Prop :=
  ∃ runs, List.Forall₂ Takes pattern runs ∧ runs.flatten <+: path

def segments (path : List Char) : List (List Char) := (globText path).splitOn '/'

/-- What `matchSegments` goes on with, in a call of itself or in the next round of its loop. -/
inductive Calls : List (List Char) × List (List Char) → List (List Char) × List (List Char) → Prop where
  | tail {rest path : List (List Char)} {i : Nat} :
      rest ≠ [] → i ≤ path.length → Calls (rest, path.drop i) (doubleStar :: rest, path)
  | next {segment name : List Char} {rest path : List (List Char)} :
      segment ≠ doubleStar → pathMatch segment name = some true →
        Calls (rest, path) (segment :: rest, name :: path)

theorem wellFounded_calls : WellFounded Calls := by
  refine Subrelation.wf ?_ (InvImage.wf (fun call => call.1.length) Nat.lt_wfRel.wf)
  intro call call' h
  cases h with
  | tail => exact Nat.lt_succ_self _
  | next => exact Nat.lt_succ_self _

section
variable {pattern path : List (List Char)}

theorem exists_of_firstMatch {α : Type} {f : α → Option Bool} {xs : List α}
    (h : firstMatch f xs = some true) : ∃ x ∈ xs, f x = some true := by
  induction xs with
  | nil => cases h
  | cons x xs ih =>
    rw [firstMatch] at h
    cases hx : f x with
    | none =>
      rw [hx] at h
      cases h
    | some answer =>
      rw [hx] at h
      cases answer with
      | true => exact ⟨x, List.mem_cons_self, hx⟩
      | false =>
        obtain ⟨y, hy, hmatch⟩ := ih h
        exact ⟨y, List.mem_cons_of_mem _ hy, hmatch⟩

theorem excludes_of_match (h : matchSegments pattern path = some true) : Excludes pattern path := by
  induction pattern generalizing path with
  | nil => exact ⟨[], .nil, List.nil_prefix⟩
  | cons segment rest ih =>
    by_cases hstar : segment = doubleStar
    · rw [hstar, matchSegments_double] at h
      split at h
      · rename_i hrest
        subst hrest
        exact ⟨[[]], .cons (.inl hstar) .nil, List.nil_prefix⟩
      · obtain ⟨tail, htail, hmatch⟩ := exists_of_firstMatch h
        obtain ⟨run, rfl⟩ := (List.mem_tails _ _).mp htail
        obtain ⟨runs, hruns, hfirst⟩ := ih hmatch
        exact ⟨run :: runs, .cons (.inl hstar) hruns, (List.prefix_append_right_inj run).mpr hfirst⟩
    · cases path with
      | nil =>
        rw [matchSegments_cons_nil hstar] at h
        cases h
      | cons name path =>
        obtain ⟨hname, hmatch⟩ := (matchSegments_cons hstar).mp h
        obtain ⟨runs, hruns, hfirst⟩ := ih hmatch
        exact ⟨[name] :: runs, .cons (.inr ⟨name, rfl, hname⟩) hruns,
          (List.prefix_append_right_inj [name]).mpr hfirst⟩

theorem Takes.parse {segment : List Char} {run : List (List Char)} (h : Takes segment run) :
    (parse segment).isSome := by
  rcases h with rfl | ⟨name, -, hmatch⟩
  · decide
  · cases hparse : Glob.parse segment with
    | some ts => rfl
    | none =>
      rw [pathMatch, hparse] at hmatch
      cases hmatch

theorem parse_of_takes {runs : List (List (List Char))} (h : List.Forall₂ Takes pattern runs) :
    ∀ segment ∈ pattern, (parse segment).isSome := by
  induction h with
  | nil => nofun
  | cons hhead _ ih =>
    intro segment hsegment
    rcases List.mem_cons.mp hsegment with rfl | hsegment
    · exact hhead.parse
    · exact ih segment hsegment

theorem match_of_takes {runs : List (List (List Char))} (h : List.Forall₂ Takes pattern runs)
    (hfirst : runs.flatten <+: path) : matchSegments pattern path = some true := by
  induction h generalizing path with
  | nil => exact matchSegments_nil _
  | @cons segment run rest runs hhead hrest ih =>
    obtain ⟨left, rfl⟩ := hfirst
    rw [List.flatten_cons, List.append_assoc]
    have hmatch := ih (List.prefix_append runs.flatten left)
    by_cases hstar : segment = doubleStar
    · rw [hstar, matchSegments_star (parse_of_takes hrest)]
      exact ⟨_, List.suffix_append _ _, hmatch⟩
    · obtain ⟨name, rfl, hname⟩ := hhead.resolve_left hstar
      exact (matchSegments_cons hstar).mpr ⟨hname, hmatch⟩

theorem matchSegments_iff_excludes : matchSegments pattern path = some true ↔ Excludes pattern path :=
  ⟨excludes_of_match, fun ⟨_, hruns, hfirst⟩ => match_of_takes hruns hfirst⟩

theorem Excludes.more {path' : List (List Char)} (h : Excludes pattern path) (hpath : path <+: path') :
    Excludes pattern path' := by
  obtain ⟨runs, hruns, hfirst⟩ := h
  exact ⟨runs, hruns, hfirst.trans hpath⟩

end

section
variable {s r : List Char}

theorem rdropWhile_append (u x : List Char) :
    (u ++ x).rdropWhile (· ∈ ['/']) = u.rdropWhile (· ∈ ['/']) ∨
      ∃ y, y <+: x ∧ y ≠ [] ∧ (u ++ x).rdropWhile (· ∈ ['/']) = u ++ y := by
  induction x using List.reverseRecOn with
  | nil => exact .inl (by rw [List.append_nil])
  | append_singleton x c ih =>
    rw [← List.append_assoc]
    by_cases hc : c = '/'
    · rw [List.rdropWhile_concat_pos _ _ _ (by simp [hc])]
      exact ih.imp_right fun ⟨y, hy, hne, heq⟩ => ⟨y, hy.trans (List.prefix_append x [c]), hne, heq⟩
    · rw [List.rdropWhile_concat_neg _ _ _ (by simp [hc])]
      exact .inr ⟨x ++ [c], List.prefix_rfl, by simp, List.append_assoc ..⟩

theorem append_slash (u y : List Char) :
    ∃ z, u ++ '/' :: y = u.rdropWhile (· ∈ ['/']) ++ '/' :: z := by
  induction u using List.reverseRecOn generalizing y with
  | nil => exact ⟨y, rfl⟩
  | append_singleton u c ih =>
    by_cases hc : c = '/'
    · rw [List.rdropWhile_concat_pos _ _ _ (by simp [hc]), hc, List.append_assoc]
      exact ih ('/' :: y)
    · rw [List.rdropWhile_concat_neg _ _ _ (by simp [hc])]
      exact ⟨y, rfl⟩

theorem trimOf_below (h : ∃ c ∈ s, c ≠ '/') :
    trimOf ['/'] (s ++ '/' :: r) = trimOf ['/'] s ∨
      ∃ z, trimOf ['/'] (s ++ '/' :: r) = trimOf ['/'] s ++ '/' :: z := by
  have hne : ¬ (s.dropWhile (· ∈ ['/'])).isEmpty = true := by
    rw [List.isEmpty_iff, List.dropWhile_eq_nil_iff]
    obtain ⟨c, hc, hslash⟩ := h
    exact fun hall => hslash (by simpa using hall c hc)
  unfold trimOf
  rw [List.dropWhile_append, if_neg hne]
  rcases rdropWhile_append (s.dropWhile (· ∈ ['/'])) ('/' :: r) with heq | ⟨y, hy, hne, heq⟩
  · exact .inl heq
  · obtain ⟨c, y, rfl⟩ := List.exists_cons_of_ne_nil hne
    obtain ⟨rfl, -⟩ := List.cons_prefix_cons.mp hy
    obtain ⟨z, hz⟩ := append_slash (s.dropWhile (· ∈ ['/'])) y
    exact .inr ⟨z, heq.trans hz⟩

theorem segments_below {p q : List Char} (h : ∃ segment ∈ segments p, segment ≠ []) :
    segments p <+: segments (p ++ '/' :: q) := by
  have hslash : ∃ c ∈ toSlashes p, c ≠ '/' := by
    by_contra hall
    push Not at hall
    have hempty : globText p = [] := by
      rw [globText, trimOf, List.dropWhile_eq_nil_iff.mpr fun c hc => by simp [hall c hc],
        List.rdropWhile_nil]
    obtain ⟨segment, hsegment, hne⟩ := h
    rw [segments, hempty] at hsegment
    exact hne (List.mem_singleton.mp hsegment)
  have htext : toSlashes (p ++ '/' :: q) = toSlashes p ++ '/' :: toSlashes q := by
    rw [toSlashes, List.map_append]
    rfl
  unfold segments globText
  rw [htext]
  rcases trimOf_below (r := toSlashes q) hslash with heq | ⟨z, heq⟩
  · rw [heq]
  · rw [heq, List.splitOn_append_cons_self]
    exact List.prefix_append _ _

end

/-- The matcher of the exclusion patterns is the relation that they are documented as. -/
theorem matchGlob_documented :
    (∀ pattern path, matchGlob pattern path = some true ↔ Excludes (segments pattern) (segments path)) ∧
      (∀ pattern p q, (∃ segment ∈ segments p, segment ≠ []) → matchGlob pattern p = some true →
        matchGlob pattern (p ++ '/' :: q) = some true) ∧
      (∀ pattern, validateGlob pattern = .ok () → ∀ path, matchGlob pattern path ≠ none) ∧
      WellFounded Calls := by
  have hiff : ∀ pattern path, matchGlob pattern path = some true ↔
      Excludes (segments pattern) (segments path) := fun _ _ => matchSegments_iff_excludes
  refine ⟨hiff, fun pattern p q hsegment hmatch => ?_, fun pattern hvalid path => ?_, wellFounded_calls⟩
  · exact (hiff _ _).mpr (((hiff _ _).mp hmatch).more (segments_below hsegment))
  · obtain ⟨answer, hanswer⟩ := matchSegments_isSome (parse_of_validateGlob hvalid) (segments path)
    have hglob : matchGlob pattern path = some answer := hanswer
    rw [hglob]
    nofun

/-- A compressed log at any depth, and what is below it. -/
theorem logs_excluded :
    Excludes (segments "var/**/*.gz".toList) (segments "var/log/nginx/a.gz".toList) ∧
      matchGlob "var/**/*.gz".toList ("var/log/nginx/a.gz".toList ++ '/' :: "b".toList) = some true ∧
      matchGlob "var/**/*.gz".toList "[".toList ≠ none := by
  obtain ⟨hiff, hbelow, hvalid, -⟩ := matchGlob_documented
  have hmatch : matchGlob "var/**/*.gz".toList "var/log/nginx/a.gz".toList = some true := by decide +kernel
  have haccepted : validateGlob "var/**/*.gz".toList = .ok () := by decide +kernel
  exact ⟨(hiff _ _).mp hmatch, hbelow _ _ _ (by decide +kernel) hmatch, hvalid _ haccepted _⟩

end ProxBack.Store
