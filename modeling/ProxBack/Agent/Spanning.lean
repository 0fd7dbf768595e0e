import ProxBack.Agent.Walk
import ProxBack.Store.Exclude

/-! Patterns with double stars. The server matches the segments between them, the agent looks for
their text; the two agree where the text only occurs as whole segments. -/
namespace ProxBack.Agent
open Lib Glob Text
open Store (doubleStar matchSegments)

def InOrder : List (List (List Char)) → List (List Char) → Prop
  | [], _ => True
  | run :: runs, names => ∃ a b, names = a ++ (run ++ b) ∧ InOrder runs b

variable {runs : List (List (List Char))} {segs names a b run : List (List Char)}

theorem InOrder.mono (a : List (List Char)) (h : InOrder runs b) : InOrder runs (a ++ b) := by
  cases runs with
  | nil => trivial
  | cons run runs =>
    obtain ⟨a', b', rfl, h⟩ := h
    exact ⟨a ++ a', b', (List.append_assoc ..).symm, h⟩

def Spanning (segs : List (List Char)) : Prop := ∀ seg ∈ segs, seg = doubleStar ∨ Literal seg

instance (segs : List (List Char)) : Decidable (Spanning segs) := inferInstanceAs (Decidable (∀ _ ∈ _, _))

theorem Spanning.parse (h : Spanning segs) : ∀ seg ∈ segs, (Glob.parse seg).isSome := by
  intro seg hseg
  rcases h seg hseg with rfl | hlit
  · decide
  · rw [parse_literal hlit.2]
    rfl

theorem Spanning.tail {seg : List Char} (h : Spanning (seg :: segs)) : Spanning segs :=
  fun s hs => h s (List.mem_cons_of_mem _ hs)

theorem matchSegments_runs (h : Spanning segs) (names : List (List Char)) :
    matchSegments segs names = some true ↔
      ∃ run runs b, segs.splitOn doubleStar = run :: runs ∧ names = run ++ b ∧ InOrder runs b := by
  induction segs generalizing names with
  | nil => exact iff_of_true (Store.matchSegments_nil names) ⟨[], [], names, rfl, rfl, trivial⟩
  | cons seg segs ih =>
    rw [List.splitOn_cons_eq_if_modifyHead]
    by_cases hstar : seg = doubleStar
    · subst hstar
      rw [if_pos (beq_self_eq_true _), Store.matchSegments_star h.tail.parse]
      constructor
      · rintro ⟨tail, ⟨a, rfl⟩, hmatch⟩
        obtain ⟨run, runs, b, hsplit, rfl, hb⟩ := (ih h.tail tail).mp hmatch
        exact ⟨[], _, a ++ (run ++ b), rfl, rfl, hsplit ▸ ⟨a, b, rfl, hb⟩⟩
      · rintro ⟨_, _, _, hsplit, rfl, hb⟩
        obtain ⟨rfl, rfl⟩ := List.cons.inj hsplit
        obtain ⟨run, runs, hruns⟩ := List.exists_cons_of_ne_nil (List.splitOn_ne_nil doubleStar segs)
        rw [hruns] at hb
        obtain ⟨a, b', rfl, hb'⟩ := hb
        exact ⟨run ++ b', ⟨a, rfl⟩, (ih h.tail _).mpr ⟨run, runs, b', hruns, rfl, hb'⟩⟩
    · have hlit := (h seg List.mem_cons_self).resolve_left hstar
      obtain ⟨run, runs, hruns⟩ := List.exists_cons_of_ne_nil (List.splitOn_ne_nil doubleStar segs)
      rw [if_neg (by simpa using hstar), hruns, List.modifyHead_cons]
      cases names with
      | nil =>
        rw [Store.matchSegments_cons_nil hstar]
        refine iff_of_false (by simp) ?_
        rintro ⟨_, _, b, hsplit, heq, -⟩
        obtain ⟨rfl, -⟩ := List.cons.inj hsplit
        cases heq
      | cons name names =>
        rw [Store.matchSegments_cons hstar, pathMatch_literal hlit, ih h.tail names, hruns]
        constructor
        · rintro ⟨rfl, _, _, b, hsplit, rfl, hb⟩
          obtain ⟨rfl, rfl⟩ := List.cons.inj hsplit
          exact ⟨_, _, b, rfl, rfl, hb⟩
        · rintro ⟨_, _, b, hsplit, heq, hb⟩
          obtain ⟨rfl, rfl⟩ := List.cons.inj hsplit
          obtain ⟨rfl, rfl⟩ := List.cons.inj heq
          exact ⟨rfl, run, runs, b, rfl, rfl, hb⟩

theorem splitStars_ne_nil (s : List Char) : splitStars s ≠ [] := by
  fun_induction splitStars s with
  | case1 => nofun
  | case2 => nofun
  | case3 c s _ ih => simpa using ih

@[grind =] theorem splitStars_append {u : List Char} (hu : '*' ∉ u) (s : List Char) :
    splitStars (u ++ s) = (splitStars s).modifyHead (u ++ ·) := by
  obtain ⟨part, parts, hs⟩ := List.exists_cons_of_ne_nil (splitStars_ne_nil s)
  rw [hs, List.modifyHead_cons]
  induction u with
  | nil => exact hs
  | cons c u ih =>
    have hc : c ≠ '*' := fun heq => hu (heq ▸ List.mem_cons_self)
    have hrest := ih fun h => hu (List.mem_cons_of_mem _ h)
    rw [List.cons_append, splitStars, hrest, List.modifyHead_cons, List.cons_append]
    rintro s' rfl
    exact absurd rfl hc

theorem splitStars_slashed (h : Spanning segs) (hplain : Plain segs) :
    List.Forall₂ (fun part run => Named run ∧ (part = slashed run ∨ part = slashed run ++ ['/']))
      (splitStars (slashed segs)) (segs.splitOn doubleStar) := by
  induction segs with
  | nil => exact .cons ⟨nofun, .inl rfl⟩ .nil
  | cons seg segs ih =>
    rw [List.splitOn_cons_eq_if_modifyHead]
    by_cases hstar : seg = doubleStar
    · subst hstar
      have hsplit : splitStars (slashed (doubleStar :: segs)) = ['/'] :: splitStars (slashed segs) := by
        rw [slashed_cons]
        exact splitStars_append (u := ['/']) (by decide) _
      rw [if_pos (beq_self_eq_true _), hsplit]
      exact .cons ⟨nofun, .inr rfl⟩ (ih h.tail hplain.tail)
    · have hlit := (h seg List.mem_cons_self).resolve_left hstar
      have hseg : '*' ∉ '/' :: seg := by
        rintro (_ | ⟨_, hmem⟩)
        exact hlit.2 '*' hmem List.mem_cons_self
      have hsplit := splitStars_append hseg (slashed segs)
      have hrest := ih h.tail hplain.tail
      obtain ⟨run, runs, hruns⟩ := List.exists_cons_of_ne_nil (List.splitOn_ne_nil doubleStar segs)
      obtain ⟨part, parts, hparts⟩ := List.exists_cons_of_ne_nil (splitStars_ne_nil (slashed segs))
      rw [hruns, hparts, List.forall₂_cons] at hrest
      rw [slashed_cons, ← List.cons_append, hsplit, if_neg (by simpa using hstar), hruns, hparts,
        List.modifyHead_cons, List.modifyHead_cons]
      obtain ⟨⟨hnamed, hpart⟩, htail⟩ := hrest
      refine .cons ⟨List.forall_mem_cons.mpr ⟨⟨hlit.1, hplain seg List.mem_cons_self⟩, hnamed⟩, ?_⟩ htail
      rcases hpart with rfl | rfl
      · exact .inl rfl
      · exact .inr (List.append_assoc ..).symm

theorem trimOf_run {part : List Char} (hrun : Named run)
    (hpart : part = slashed run ∨ part = slashed run ++ ['/']) : trimOf ['/'] part = joined run := by
  have hslashed : trimOf ['/'] (slashed run) = joined run := by
    cases run with
    | nil => rfl
    | cons seg run =>
      rw [← cons_joined (List.cons_ne_nil seg run), trimOf_cons List.mem_cons_self]
      refine trimOf_of_ends (fun c hc => ?_) fun c hc => ?_
      · simpa using joined_head hrun c hc
      · simpa using joined_last hrun c hc
  rcases hpart with rfl | rfl
  · exact hslashed
  · rw [trimOf_concat List.mem_cons_self, hslashed]

theorem afterFirst_some {part s after : List Char} (h : afterFirst part s = some after) :
    ∃ u, s = u ++ (part ++ after) ∧ ∀ u' w, s = u' ++ (part ++ w) → u.length ≤ u'.length := by
  induction s with
  | nil =>
    rw [afterFirst] at h
    split at h
    · rename_i hnil
      cases h
      exact ⟨[], by rw [hnil]; rfl, fun _ _ _ => Nat.zero_le _⟩
    · cases h
  | cons c s ih =>
    rw [afterFirst] at h
    split at h
    · rename_i hpre
      cases h
      exact ⟨[], (List.prefix_iff_eq_append.mp hpre).symm, fun _ _ _ => Nat.zero_le _⟩
    · rename_i hpre
      obtain ⟨u, rfl, hfirst⟩ := ih h
      refine ⟨c :: u, rfl, fun u' w hu' => ?_⟩
      cases u' with
      | nil => exact absurd ⟨w, hu'.symm⟩ hpre
      | cons d u' => exact Nat.succ_le_succ (hfirst u' w (List.cons.inj hu').2)

theorem afterFirst_isSome (u part w : List Char) : ∃ after, afterFirst part (u ++ (part ++ w)) = some after := by
  induction u with
  | nil =>
    rw [List.nil_append]
    cases hs : part ++ w with
    | nil =>
      obtain ⟨rfl, -⟩ := List.append_eq_nil_iff.mp hs
      exact ⟨[], rfl⟩
    | cons c s => exact ⟨_, if_pos ⟨w, hs⟩⟩
  | cons c u ih =>
    rw [List.cons_append, afterFirst]
    split
    · exact ⟨_, rfl⟩
    · exact ih

theorem afterFirst_cons {part s : List Char} {c : Char} (hne : part ≠ []) (hhead : ∀ d ∈ part.head?, d ≠ c) :
    afterFirst part (c :: s) = afterFirst part s := by
  obtain ⟨d, rest, rfl⟩ := List.exists_cons_of_ne_nil hne
  rw [afterFirst, if_neg]
  intro hpre
  exact hhead d rfl (List.cons_prefix_cons.mp hpre).1

def Aligned (part name : List Char) : Prop :=
  ∀ u w, name = u ++ (part ++ w) → (∀ c ∈ u.getLast?, c = '/') ∧ ∀ c ∈ w.head?, c = '/'

theorem aligned_iff {part name : List Char} :
    Aligned part name ↔ ∀ i ∈ List.range (name.length + 1), part <+: name.drop i →
      (∀ c ∈ (name.take i).getLast?, c = '/') ∧ ∀ c ∈ (name.drop (i + part.length)).head?, c = '/' := by
  constructor
  · rintro h i - ⟨w, hw⟩
    have hafter : name.drop (i + part.length) = w := by
      rw [← List.drop_drop, ← hw, List.drop_left]
    rw [hafter]
    exact h (name.take i) w (by rw [hw, List.take_append_drop])
  · rintro h u w rfl
    have hi : u.length ∈ List.range ((u ++ (part ++ w)).length + 1) := by
      rw [List.mem_range, List.length_append]
      omega
    have hplace := h u.length hi (by rw [List.drop_left]; exact List.prefix_append _ _)
    rwa [List.take_left, ← List.drop_drop, List.drop_left, List.drop_left] at hplace

instance (part name : List Char) : Decidable (Aligned part name) := decidable_of_iff _ aligned_iff.symm

theorem Aligned.front {part name u w : List Char} (h : Aligned part name) (hne : u ≠ [])
    (heq : name = u ++ (part ++ w)) : (∃ v, u = v ++ ['/']) ∧ ∀ c ∈ w.head?, c = '/' := by
  obtain ⟨hu, hw⟩ := h u w heq
  refine ⟨⟨u.dropLast, ?_⟩, hw⟩
  have hlast := hu (u.getLast hne) (List.getLast?_eq_some_getLast hne)
  rw [← hlast, List.dropLast_append_getLast]

theorem Aligned.of_suffix {part name tail : List Char} (h : Aligned part name) (htail : tail <:+ name) :
    Aligned part tail := by
  intro u w heq
  obtain ⟨front, rfl⟩ := htail
  obtain ⟨hu, hw⟩ := h (front ++ u) w (by rw [heq, List.append_assoc])
  refine ⟨fun c hc => hu c ?_, hw⟩
  rw [List.getLast?_append, Option.mem_def.mp hc]
  rfl

theorem Aligned.slashed {part : List Char} (h : Aligned part (joined names)) (hne : names ≠ [])
    (hpart : part ≠ []) (hhead : ∀ c ∈ part.head?, c ≠ '/') : Aligned part (slashed names) := by
  intro u w heq
  rw [← cons_joined hne] at heq
  obtain ⟨d, rest, rfl⟩ := List.exists_cons_of_ne_nil hpart
  cases u with
  | nil => exact absurd (List.cons.inj heq).1.symm (hhead d rfl)
  | cons c u =>
    obtain ⟨rfl, hjoined⟩ := List.cons.inj heq
    obtain ⟨hu, hw⟩ := h u w hjoined
    refine ⟨fun c hc => ?_, hw⟩
    cases u with
    | nil => exact (Option.mem_some.mp hc).symm
    | cons e u =>
      rw [List.getLast?_cons_cons] at hc
      exact hu c hc

theorem run_of_text (hnames : Named names) (hrun : Named run) (hne : run ≠ []) {u w : List Char}
    (heq : slashed names = (u ++ ['/']) ++ (joined run ++ w)) (hw : ∀ c ∈ w.head?, c = '/') :
    ∃ a b, names = a ++ (run ++ b) ∧ slashed a = u ∧ slashed b = w := by
  rw [List.append_assoc, List.singleton_append, ← List.cons_append, cons_joined hne] at heq
  obtain ⟨seg, rest, rfl⟩ := List.exists_cons_of_ne_nil hne
  rw [slashed_cons, List.cons_append] at heq
  obtain ⟨a, tail, rfl, ha, htail⟩ := slashed_split hnames.plain heq
  rw [← List.cons_append, ← slashed_cons] at htail
  have hplain := hnames.plain.right
  cases w with
  | nil =>
    rw [List.append_nil] at htail
    have htail' := slashed_injective hplain hrun.plain htail
    exact ⟨a, [], by rw [htail', List.append_nil], ha, rfl⟩
  | cons c w =>
    obtain rfl : c = '/' := hw c rfl
    obtain ⟨run', b, rfl, hrun', hb⟩ := slashed_split hplain htail
    have heq' := slashed_injective hplain.left hrun.plain hrun'
    exact ⟨a, b, by rw [heq'], ha, hb⟩

theorem slashed_le {a a' : List (List Char)} (ha : a <+: names) (ha' : a' <+: names)
    (h : (slashed a).length ≤ (slashed a').length) : a <+: a' := by
  rcases List.prefix_or_prefix_of_prefix ha ha' with hpre | ⟨d, rfl⟩
  · exact hpre
  · cases d with
    | nil => rw [List.append_nil]
    | cons seg d =>
      rw [slashed_append, List.length_append, slashed_cons, List.length_cons] at h
      omega

theorem partsFound_runs {pattern : List Char} {parts : List (List Char)} {i : Nat} (hi : i ≠ 0)
    (hparts : List.Forall₂ (fun part run => trimOf ['/'] part = joined run) parts runs)
    (hruns : ∀ run ∈ runs, Named run) (hnames : Named names)
    (haligned : ∀ run ∈ runs, run ≠ [] → Aligned (joined run) (slashed names)) :
    partsFound pattern i parts (slashed names) = true ↔ InOrder runs names := by
  induction hparts generalizing i names with
  | nil => exact iff_of_true rfl trivial
  | cons hpart hrest ih =>
    rename_i part run parts runs
    have hnamed := hruns run List.mem_cons_self
    have ih' := fun {i : Nat} {b : List (List Char)} (hi : i ≠ 0) (hb : Named b)
        (hsuffix : slashed b <:+ slashed names) =>
      ih hi (fun r hr => hruns r (List.mem_cons_of_mem _ hr)) hb fun r hr hne =>
        (haligned r (List.mem_cons_of_mem _ hr) hne).of_suffix hsuffix
    rw [partsFound, hpart]
    cases run with
    | nil =>
      rw [if_pos (show joined [] = [] from rfl), ih' (Nat.succ_ne_zero i) hnames List.suffix_rfl]
      constructor
      · intro h
        exact ⟨[], names, rfl, h⟩
      · rintro ⟨a, b, rfl, h⟩
        exact h.mono a
    | cons seg run =>
      have hne : seg :: run ≠ [] := List.cons_ne_nil seg run
      have htext : joined (seg :: run) ≠ [] := by
        rw [joined_cons]
        exact List.append_ne_nil_of_left_ne_nil (hnamed seg List.mem_cons_self).1 _
      rw [if_neg htext]
      have hplace : ∀ u w, slashed names = u ++ (joined (seg :: run) ++ w) →
          ∃ a b, names = a ++ ((seg :: run) ++ b) ∧ slashed a ++ ['/'] = u ∧ slashed b = w := by
        intro u w heq
        have hu : u ≠ [] := by
          rintro rfl
          rw [List.nil_append] at heq
          obtain ⟨c, rest, hcons⟩ := List.exists_cons_of_ne_nil htext
          cases names with
          | nil =>
            rw [hcons] at heq
            cases heq
          | cons name names =>
            rw [hcons, slashed_cons] at heq
            exact joined_head hnamed c (by rw [hcons]; rfl) (List.cons.inj heq).1.symm
        obtain ⟨⟨v, rfl⟩, hw⟩ := (haligned _ List.mem_cons_self hne).front hu heq
        obtain ⟨a, b, hab, ha, hb⟩ := run_of_text hnames hnamed hne heq hw
        exact ⟨a, b, hab, by rw [ha], hb⟩
      constructor
      · intro h
        cases hafter : afterFirst (joined (seg :: run)) (slashed names) with
        | none =>
          rw [hafter] at h
          cases h
        | some after =>
          rw [hafter] at h
          dsimp only at h
          rw [if_neg (fun hz => hi hz.1)] at h
          obtain ⟨u, heq, -⟩ := afterFirst_some hafter
          obtain ⟨a, b, rfl, -, rfl⟩ := hplace u after heq
          refine ⟨a, b, rfl, (ih' (Nat.succ_ne_zero i) ?_ ?_).mp h⟩
          · exact fun s hs => hnames s (List.mem_append_right _ (List.mem_append_right _ hs))
          · rw [slashed_append, slashed_append, ← List.append_assoc]
            exact List.suffix_append _ _
      · rintro ⟨a, b, rfl, hb⟩
        have hthere : slashed (a ++ ((seg :: run) ++ b)) =
            (slashed a ++ ['/']) ++ (joined (seg :: run) ++ slashed b) := by
          rw [slashed_append, slashed_append, ← cons_joined hne, List.append_assoc, List.singleton_append,
            List.cons_append]
        obtain ⟨after, hafter⟩ := afterFirst_isSome (slashed a ++ ['/']) (joined (seg :: run)) (slashed b)
        rw [← hthere] at hafter
        rw [hafter]
        dsimp only
        rw [if_neg (fun hz => hi hz.1)]
        obtain ⟨u, heq, hfirst⟩ := afterFirst_some hafter
        obtain ⟨a', b', hab', rfl, rfl⟩ := hplace u after heq
        have hle := hfirst _ _ hthere
        -- the place found is no later than the one given, so more is left after it
        rw [List.length_append, List.length_append, Nat.add_le_add_iff_right] at hle
        obtain ⟨d, rfl⟩ := slashed_le ⟨_, hab'.symm⟩ (List.prefix_append a _) hle
        rw [List.append_assoc] at hab'
        have htails := List.append_cancel_left hab'
        have hlen := congrArg List.length htails
        simp only [List.length_append] at hlen
        have hb' : b <:+ (seg :: run) ++ b' := by
          rw [← htails, ← List.append_assoc]
          exact List.suffix_append _ _
        obtain ⟨e, rfl⟩ := List.suffix_of_suffix_length_le hb' (List.suffix_append _ b') (by omega)
        refine (ih' (Nat.succ_ne_zero i) ?_ ?_).mpr (hb.mono e)
        · intro s hs
          refine hnames s ?_
          rw [List.append_assoc, htails]
          exact List.mem_append_right _ (List.mem_append_right _ hs)
        · rw [heq, ← List.append_assoc]
          exact List.suffix_append _ _

theorem partsFound_slashed {pattern : List Char} {parts : List (List Char)} {i : Nat} (hi : i ≠ 0)
    (hparts : List.Forall₂ (fun part run => trimOf ['/'] part = joined run) parts runs)
    (hruns : ∀ run ∈ runs, Named run) (hne : names ≠ []) :
    partsFound pattern i parts (joined names) = partsFound pattern i parts (slashed names) := by
  induction hparts generalizing i with
  | nil => rfl
  | cons hpart hrest ih =>
    rename_i part run parts runs
    rw [partsFound, partsFound, hpart]
    by_cases htext : joined run = []
    · rw [if_pos htext, if_pos htext]
      exact ih (Nat.succ_ne_zero i) fun r hr => hruns r (List.mem_cons_of_mem _ hr)
    · have hfirst := afterFirst_cons (s := joined names) htext (joined_head (hruns run List.mem_cons_self))
      rw [cons_joined hne] at hfirst
      rw [if_neg htext, if_neg htext, hfirst]
      cases afterFirst (joined run) (joined names) with
      | none => rfl
      | some after =>
        dsimp only
        rw [if_neg (fun hz => hi hz.1), if_neg (fun hz => hi hz.1)]

@[simp] theorem matchSegments_self (h : Spanning segs) : matchSegments segs segs = some true := by
  induction segs with
  | nil => exact Store.matchSegments_nil _
  | cons seg segs ih =>
    by_cases hstar : seg = doubleStar
    · rw [hstar, Store.matchSegments_star h.tail.parse]
      exact ⟨segs, List.suffix_cons _ _, ih h.tail⟩
    · rw [Store.matchSegments_cons hstar]
      exact ⟨(pathMatch_literal ((h seg List.mem_cons_self).resolve_left hstar)).mpr rfl, ih h.tail⟩

theorem named_of_mem_splitOn (h : Spanning segs) (hplain : Plain segs)
    (hrun : run ∈ segs.splitOn doubleStar) : Named run := by
  intro seg hseg
  rw [List.splitOn_eq_splitOnP] at hrun
  have hmem := mem_of_mem_splitOnP hrun seg hseg
  refine ⟨?_, hplain seg hmem.1⟩
  exact ((h seg hmem.1).resolve_left (by simpa using hmem.2)).1

theorem two_runs (h : doubleStar ∈ segs) :
    ∃ run run' runs, segs.splitOn doubleStar = run :: run' :: runs := by
  obtain ⟨a, b, rfl⟩ := List.append_of_mem h
  obtain ⟨run, runs, ha⟩ := List.exists_cons_of_ne_nil (List.splitOn_ne_nil doubleStar a)
  obtain ⟨run', runs', hb⟩ := List.exists_cons_of_ne_nil (List.splitOn_ne_nil doubleStar b)
  rw [List.splitOn_append_cons_self, ha, hb]
  cases runs with
  | nil => exact ⟨run, run', runs', rfl⟩
  | cons r runs => exact ⟨run, r, runs ++ run' :: runs', rfl⟩

theorem splitStars_joined (h : Spanning segs) (hplain : Plain segs) (hne : segs ≠ []) :
    List.Forall₂ (fun part run => trimOf ['/'] part = joined run) (splitStars (joined segs))
      (segs.splitOn doubleStar) := by
  have hslashed := splitStars_slashed h hplain
  have hsplit := splitStars_append (u := ['/']) (by decide) (joined segs)
  rw [List.singleton_append, cons_joined hne] at hsplit
  obtain ⟨part, parts, hparts⟩ := List.exists_cons_of_ne_nil (splitStars_ne_nil (joined segs))
  obtain ⟨run, runs, hruns⟩ := List.exists_cons_of_ne_nil (List.splitOn_ne_nil doubleStar segs)
  rw [hsplit, hparts, hruns, List.modifyHead_cons, List.forall₂_cons] at hslashed
  obtain ⟨⟨hnamed, hpart⟩, hrest⟩ := hslashed
  rw [hparts, hruns]
  refine .cons ?_ (hrest.imp fun _ _ h => trimOf_run h.1 h.2)
  rw [← trimOf_run hnamed hpart]
  exact (trimOf_cons List.mem_cons_self).symm

theorem not_star_of_run (h : Spanning segs) {runs : List (List (List Char))}
    (hruns : segs.splitOn doubleStar = run :: runs) (hne : run ≠ []) :
    ¬ ['*', '*'] <+: joined segs := by
  cases segs with
  | nil =>
    cases hruns
    exact absurd rfl hne
  | cons seg segs =>
    rw [List.splitOn_cons_eq_if_modifyHead] at hruns
    by_cases hstar : seg = doubleStar
    · rw [if_pos (by simpa using hstar)] at hruns
      exact absurd (List.cons.inj hruns).1.symm hne
    · obtain ⟨hseg, hlit⟩ := (h seg List.mem_cons_self).resolve_left hstar
      obtain ⟨c, rest, rfl⟩ := List.exists_cons_of_ne_nil hseg
      rw [joined_cons, List.cons_append]
      intro hpre
      exact hlit c List.mem_cons_self ((List.cons_prefix_cons.mp hpre).1 ▸ List.mem_cons_self)

section Whole

variable {t : List Char} (hspan : Spanning (t.splitOn '/')) (hnames : Named names) (hne : names ≠ [])
  (haligned : ∀ run ∈ (t.splitOn '/').splitOn doubleStar, run ≠ [] → Aligned (joined run) (joined names))

@[simp]
theorem joined_splitOn (t : List Char) : joined (t.splitOn '/') = t := List.intercalate_splitOn '/'

include hspan hnames hne haligned

@[grind =] theorem partsFound_iff :
    partsFound t 0 (splitStars t) (joined names) = true ↔
      matchSegments (t.splitOn '/') names = some true := by
  have hplain := plain_splitOn t
  have hnamed : ∀ run ∈ (t.splitOn '/').splitOn doubleStar, Named run :=
    fun run => named_of_mem_splitOn hspan hplain
  have hparts := splitStars_joined hspan hplain (List.splitOn_ne_nil '/' t)
  obtain ⟨run, runs, hruns⟩ := List.exists_cons_of_ne_nil (List.splitOn_ne_nil doubleStar (t.splitOn '/'))
  have hstar := not_star_of_run hspan hruns
  have htext : ∀ r ∈ run :: runs, r ≠ [] → joined r ≠ [] := by
    intro r hr hrne
    obtain ⟨seg, rest, rfl⟩ := List.exists_cons_of_ne_nil hrne
    rw [joined_cons]
    exact List.append_ne_nil_of_left_ne_nil (hnamed _ (hruns ▸ hr) seg List.mem_cons_self).1 _
  have hslashed : ∀ r ∈ run :: runs, r ≠ [] → Aligned (joined r) (slashed names) := fun r hr hrne =>
    (haligned r (hruns ▸ hr) hrne).slashed hne (htext r hr hrne) (joined_head (hnamed r (hruns ▸ hr)))
  rw [matchSegments_runs hspan, hruns]
  rw [joined_splitOn] at hparts hstar
  rw [hruns] at hparts hnamed
  obtain ⟨part, parts, hpart, hrest, hsplit⟩ := List.forall₂_cons_right_iff.mp hparts
  have hlater : ∀ r ∈ runs, Named r := fun r hr => hnamed r (List.mem_cons_of_mem _ hr)
  have hfound : ∀ {b : List (List Char)}, Named b → slashed b <:+ slashed names →
      (partsFound t 1 parts (slashed b) = true ↔ InOrder runs b) := fun hb hsuffix =>
    partsFound_runs Nat.one_ne_zero hrest hlater hb fun r hr hrne =>
      (hslashed r (List.mem_cons_of_mem _ hr) hrne).of_suffix hsuffix
  rw [hsplit, partsFound, hpart]
  by_cases hrun : run = []
  · subst hrun
    rw [if_pos (show joined [] = [] from rfl), partsFound_slashed Nat.one_ne_zero hrest hlater hne,
      hfound hnames List.suffix_rfl]
    constructor
    · intro h
      exact ⟨[], runs, names, rfl, rfl, h⟩
    · rintro ⟨_, _, b, heq, rfl, h⟩
      obtain ⟨rfl, rfl⟩ := List.cons.inj heq
      exact h
  rw [if_neg (htext run List.mem_cons_self hrun)]
  constructor
  · intro h
    cases hafter : afterFirst (joined run) (joined names) with
    | none =>
      rw [hafter] at h
      cases h
    | some after =>
      rw [hafter] at h
      dsimp only at h
      by_cases hpre : joined run <+: joined names
      · rw [if_neg (fun hz => hz.2.1 hpre)] at h
        obtain ⟨w, hw⟩ := hpre
        obtain ⟨u, heq, hfirst⟩ := afterFirst_some hafter
        have hu : u = [] := List.length_eq_zero_iff.mp (Nat.le_zero.mp (hfirst [] w hw.symm))
        subst hu
        have hedge := (haligned run (hruns ▸ List.mem_cons_self) hrun [] after heq).2
        have hwhole : slashed names = ([] ++ ['/']) ++ (joined run ++ after) := by
          rw [← cons_joined hne, heq]
          rfl
        obtain ⟨a, b, rfl, ha, rfl⟩ := run_of_text hnames (hnamed run List.mem_cons_self) hrun hwhole hedge
        have hnil : a = [] := slashed_injective (hnames.plain.left) nofun ha
        subst hnil
        refine ⟨run, runs, b, rfl, rfl, (hfound ?_ ?_).mp h⟩
        · exact fun s hs => hnames s (List.mem_append_right run hs)
        · rw [List.nil_append, slashed_append]
          exact List.suffix_append _ _
      · rw [if_pos ⟨rfl, hpre, hstar hrun⟩] at h
        cases h
  · rintro ⟨_, _, b, heq, rfl, h⟩
    obtain ⟨rfl, rfl⟩ := List.cons.inj heq
    have hpre : joined run <+: joined (run ++ b) := by
      rw [joined_append hrun]
      exact List.prefix_append _ _
    have hafter : afterFirst (joined run) (joined (run ++ b)) = some (slashed b) := by
      obtain ⟨after, hafter⟩ := afterFirst_isSome [] (joined run) (slashed b)
      obtain ⟨u, heq, hfirst⟩ := afterFirst_some hafter
      have hu : u = [] := List.length_eq_zero_iff.mp (Nat.le_zero.mp (hfirst [] (slashed b) rfl))
      subst hu
      have hcancel := List.append_cancel_left (List.append_cancel_left heq)
      rw [← hcancel] at hafter
      rw [joined_append hrun]
      exact hafter
    rw [hafter]
    dsimp only
    rw [if_neg (fun hz => hz.2.1 hpre)]
    refine (hfound ?_ ?_).mpr h
    · exact fun s hs => hnames s (List.mem_append_right _ hs)
    · rw [slashed_append]
      exact List.suffix_append _ _

theorem matchGlob_spanning (hstar : doubleStar ∈ t.splitOn '/') :
    matchGlob t (joined names) = true ↔ matchSegments (t.splitOn '/') names = some true := by
  have hlen : (splitStars t).length ≠ 1 := by
    have hparts := (splitStars_joined hspan (plain_splitOn t) (List.splitOn_ne_nil '/' t)).length_eq
    obtain ⟨run, run', runs, hruns⟩ := two_runs hstar
    rw [joined_splitOn, hruns, List.length_cons, List.length_cons] at hparts
    omega
  rw [matchGlob]
  by_cases heq : t = joined names
  · rw [if_pos heq]
    have hsegs : names = t.splitOn '/' := by rw [heq, splitOn_joined hnames.plain hne]
    rw [hsegs]
    exact iff_of_true rfl (matchSegments_self hspan)
  · rw [if_neg heq, if_neg hlen]
    exact partsFound_iff hspan hnames hne haligned

end Whole

end ProxBack.Agent
