import Mathlib.Data.List.Basic
import ProxBack.Lib.Text

/-! Paths as the list of their segments and as the text with separators between them. -/
namespace ProxBack.Lib

def Plain (segs : List (List Char)) : Prop := ∀ seg ∈ segs, '/' ∉ seg

def slashed (segs : List (List Char)) : List Char := segs.flatMap fun seg => '/' :: seg

def joined (segs : List (List Char)) : List Char := ['/'].intercalate segs

variable {seg u v : List Char} {segs a b : List (List Char)}

@[simp] theorem slashed_cons : slashed (seg :: segs) = '/' :: (seg ++ slashed segs) := rfl

@[simp] theorem slashed_append : slashed (a ++ b) = slashed a ++ slashed b := List.flatMap_append

@[simp] theorem joined_cons : joined (seg :: segs) = seg ++ slashed segs := by
  induction segs generalizing seg with
  | nil => simp [joined, slashed, List.intercalate]
  | cons next segs ih =>
    have hrest : joined (seg :: next :: segs) = seg ++ '/' :: joined (next :: segs) := by
      simp [joined, List.intercalate]
    rw [hrest, ih, slashed_cons]

theorem cons_joined (h : segs ≠ []) : '/' :: joined segs = slashed segs := by
  obtain ⟨seg, segs, rfl⟩ := List.exists_cons_of_ne_nil h
  rw [joined_cons, slashed_cons]

theorem Plain.tail (h : Plain (seg :: segs)) : Plain segs := fun s hs => h s (List.mem_cons_of_mem _ hs)

theorem Plain.left (h : Plain (a ++ b)) : Plain a := fun s hs => h s (List.mem_append_left _ hs)

theorem Plain.right (h : Plain (a ++ b)) : Plain b := fun s hs => h s (List.mem_append_right _ hs)

theorem splitOn_joined (h : Plain segs) (hne : segs ≠ []) : (joined segs).splitOn '/' = segs :=
  List.splitOn_intercalate '/' h hne

theorem plain_splitOn (t : List Char) : Plain (t.splitOn '/') := by
  intro seg hseg hslash
  rw [List.splitOn_eq_splitOnP] at hseg
  have hmem := (Text.mem_of_mem_splitOnP hseg '/' hslash).2
  cases hmem

theorem joined_injective (ha : Plain a) (hb : Plain b) (hane : a ≠ []) (hbne : b ≠ [])
    (h : joined a = joined b) : a = b := by
  rw [← splitOn_joined ha hane, h, splitOn_joined hb hbne]

theorem slashed_injective (ha : Plain a) (hb : Plain b) (h : slashed a = slashed b) : a = b := by
  cases a with
  | nil =>
    cases b with
    | nil => rfl
    | cons s b => cases h
  | cons r a =>
    cases b with
    | nil => cases h
    | cons s b =>
      refine joined_injective ha hb nofun nofun ?_
      rw [joined_cons, joined_cons]
      exact (List.cons.inj h).2

theorem cut_unique {x y : List Char} (hx : '/' ∉ x) (hy : '/' ∉ y) (h : x ++ '/' :: u = y ++ '/' :: v) :
    x = y ∧ u = v := by
  have hspan : ∀ x u : List Char, '/' ∉ x → (x ++ '/' :: u).takeWhile (· ≠ '/') = x := by
    intro x u hx
    rw [List.takeWhile_append_of_pos fun c hc => by simpa using fun heq : c = '/' => hx (heq ▸ hc)]
    simp
  have hxy : x = y := by rw [← hspan x u hx, h, hspan y v hy]
  rw [hxy] at h
  exact ⟨hxy, (List.cons.inj (List.append_cancel_left h)).2⟩

theorem slashed_split (h : Plain segs) (heq : slashed segs = u ++ '/' :: v) :
    ∃ a b, segs = a ++ b ∧ slashed a = u ∧ slashed b = '/' :: v := by
  induction segs generalizing u with
  | nil => exact absurd heq.symm (List.append_ne_nil_of_right_ne_nil u nofun)
  | cons seg segs ih =>
    cases u with
    | nil => exact ⟨[], seg :: segs, rfl, rfl, heq⟩
    | cons c u =>
      rw [slashed_cons, List.cons_append] at heq
      obtain ⟨rfl, hrest⟩ := List.cons.inj heq
      rcases List.append_eq_append_iff.mp hrest with ⟨w, rfl, hw⟩ | ⟨w, hseg, hw⟩
      · obtain ⟨a, b, rfl, ha, hb⟩ := ih h.tail hw
        exact ⟨seg :: a, b, rfl, by rw [slashed_cons, ha], hb⟩
      · cases w with
        | nil =>
          rw [List.append_nil] at hseg
          exact ⟨[seg], segs, rfl, by rw [slashed_cons, hseg]; exact congrArg _ (List.append_nil u), hw.symm⟩
        | cons c w =>
          obtain ⟨rfl, -⟩ := List.cons.inj hw
          refine absurd ?_ (h seg List.mem_cons_self)
          rw [hseg]
          exact List.mem_append_right _ List.mem_cons_self

@[simp] theorem joined_singleton (seg : List Char) : joined [seg] = seg := by
  rw [joined_cons, slashed, List.flatMap_nil, List.append_nil]

theorem mem_slashed {c : Char} : c ∈ slashed segs → c = '/' ∨ ∃ seg ∈ segs, c ∈ seg := by
  intro h
  obtain ⟨seg, hseg, hc⟩ := List.mem_flatMap.mp h
  exact (List.mem_cons.mp hc).imp_right fun hc => ⟨seg, hseg, hc⟩

theorem mem_joined {c : Char} (h : c ∈ joined segs) : c = '/' ∨ ∃ seg ∈ segs, c ∈ seg := by
  cases segs with
  | nil => cases h
  | cons seg segs => exact mem_slashed (cons_joined (List.cons_ne_nil seg segs) ▸ List.mem_cons_of_mem _ h)

@[simp] theorem joined_append (hne : a ≠ []) : joined (a ++ b) = joined a ++ slashed b := by
  obtain ⟨seg, a, rfl⟩ := List.exists_cons_of_ne_nil hne
  rw [List.cons_append, joined_cons, joined_cons, slashed_append, List.append_assoc]

theorem joined_below (ha : Plain a) (hb : Plain b) (hane : a ≠ []) (hbne : b ≠ []) :
    joined a ++ ['/'] <+: joined b ↔ ∃ c, c ≠ [] ∧ b = a ++ c := by
  constructor
  · rintro ⟨rest, hrest⟩
    have htext : slashed b = slashed a ++ '/' :: rest := by
      rw [← cons_joined hbne, ← cons_joined hane, ← hrest]
      simp
    obtain ⟨a', c, rfl, ha', hc⟩ := slashed_split hb htext
    have hsame := slashed_injective hb.left ha ha'
    refine ⟨c, ?_, by rw [hsame]⟩
    rintro rfl
    cases hc
  · rintro ⟨c, hc, rfl⟩
    rw [joined_append hane, ← cons_joined hc]
    exact ⟨joined c, by simp⟩

theorem infix_joined (h : seg ∈ segs) : seg <:+: joined segs := by
  obtain ⟨a, b, rfl⟩ := List.append_of_mem h
  cases a with
  | nil =>
    rw [List.nil_append, joined_cons]
    exact (List.prefix_append _ _).isInfix
  | cons s a =>
    rw [joined_append (List.cons_ne_nil s a), slashed_cons]
    exact ⟨joined (s :: a) ++ ['/'], slashed b, by simp⟩

def Named (segs : List (List Char)) : Prop := ∀ seg ∈ segs, seg ≠ [] ∧ '/' ∉ seg

theorem Named.plain (h : Named segs) : Plain segs := fun seg hseg => (h seg hseg).2

theorem Named.tail (h : Named (seg :: segs)) : Named segs := fun s hs => h s (List.mem_cons_of_mem _ hs)

theorem Named.append (ha : Named a) (hb : Named b) : Named (a ++ b) :=
  fun s hs => (List.mem_append.mp hs).elim (ha s) (hb s)

theorem slashed_last (h : Named segs) : ∀ c ∈ (slashed segs).getLast?, c ≠ '/' := by
  induction segs with
  | nil => nofun
  | cons seg segs ih =>
    obtain ⟨hne, hseg⟩ := h seg List.mem_cons_self
    obtain ⟨d, rest, hcons⟩ := List.exists_cons_of_ne_nil hne
    intro c hc
    rw [slashed_cons, hcons, List.cons_append, List.getLast?_cons_cons, ← List.cons_append, ← hcons,
      List.getLast?_append, Option.mem_def, Option.or_eq_some_iff] at hc
    rcases hc with hc | ⟨-, hc⟩
    · exact ih h.tail c hc
    · rintro rfl
      exact hseg (List.mem_of_getLast? hc)

theorem joined_head (h : Named segs) : ∀ c ∈ (joined segs).head?, c ≠ '/' := by
  cases segs with
  | nil => nofun
  | cons seg segs =>
    obtain ⟨hne, hseg⟩ := h seg List.mem_cons_self
    obtain ⟨d, rest, rfl⟩ := List.exists_cons_of_ne_nil hne
    intro c hc
    rw [joined_cons, List.cons_append, List.head?_cons, Option.mem_some] at hc
    rintro rfl
    exact hseg (hc ▸ List.mem_cons_self)

theorem joined_last (h : Named segs) : ∀ c ∈ (joined segs).getLast?, c ≠ '/' := by
  cases segs with
  | nil => nofun
  | cons seg segs =>
    intro c hc
    refine slashed_last h c ?_
    have hne : joined (seg :: segs) ≠ [] := by
      rintro hnil
      rw [hnil] at hc
      cases hc
    obtain ⟨d, rest, hcons⟩ := List.exists_cons_of_ne_nil hne
    rw [← cons_joined (List.cons_ne_nil seg segs), hcons, List.getLast?_cons_cons, ← hcons]
    exact hc

end ProxBack.Lib
