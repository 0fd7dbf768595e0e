import Mathlib.Data.Finset.Max
import Mathlib.Data.Finset.Card
import Mathlib.Data.Finset.Union
import Mathlib.Data.Fintype.Basic
import Mathlib.Data.Finset.Dedup

/-! Rules that pick members of a finite set, in such a way that dropping what was not
picked never changes a later pick. -/
namespace ProxBack.Lib

/-- A rule whose pick from a set is decided by any part of the set that has the pick
in it, whatever is added to both. -/
structure ChoiceRule (α : Type) [DecidableEq α] where
  pick : Finset α → Finset α
  subset : ∀ A, pick A ⊆ A
  settled : ∀ A X B, pick A ⊆ X → X ⊆ A → pick (X ∪ B) = pick (A ∪ B)

inductive ChoiceEvent (α : Type) where
  | arrive (a : α)
  | prune

namespace ChoiceRule

section Rules

variable {α : Type} [DecidableEq α]

def all (α : Type) [DecidableEq α] : ChoiceRule α where
  pick A := A
  subset _ := Finset.Subset.refl _
  settled _ _ B h h' := by rw [Finset.Subset.antisymm h' h]

def join {ι : Type} [Fintype ι] (R : ι → ChoiceRule α) : ChoiceRule α where
  pick A := Finset.univ.biUnion fun i => (R i).pick A
  subset A := Finset.biUnion_subset.mpr fun i _ => (R i).subset A
  settled A X B h h' := by
    have hi : ∀ i, (R i).pick (X ∪ B) = (R i).pick (A ∪ B) := by
      intro i
      apply (R i).settled A X B _ h'
      exact (Finset.subset_biUnion_of_mem (fun i => (R i).pick A) (Finset.mem_univ i)).trans h
    simp only [hi]

@[simp] theorem mem_join {ι : Type} [Fintype ι] (R : ι → ChoiceRule α) {A : Finset α} {a : α} :
    a ∈ (join R).pick A ↔ ∃ i, a ∈ (R i).pick A := by
  simp [join]

theorem join_settles {ι : Type} [Fintype ι] (R : ι → ChoiceRule α) (i : ι) (A B : Finset α) :
    (R i).pick ((join R).pick A ∪ B) = (R i).pick (A ∪ B) :=
  (R i).settled A _ B
    (Finset.subset_biUnion_of_mem (fun i => (R i).pick A) (Finset.mem_univ i)) ((join R).subset A)

variable (R : ChoiceRule α)

@[simp] theorem pick_pick_union (A B : Finset α) : R.pick (R.pick A ∪ B) = R.pick (A ∪ B) :=
  R.settled A (R.pick A) B (Finset.Subset.refl _) (R.subset A)

@[simp] theorem pick_pick (A : Finset α) : R.pick (R.pick A) = R.pick A := by
  have h := R.pick_pick_union A ∅
  rwa [Finset.union_empty, Finset.union_empty] at h

def after : List (ChoiceEvent α) → Finset α → Finset α
  | [], A => A
  | .arrive a :: es, A => after es (insert a A)
  | .prune :: es, A => after es (R.pick A)

def arrivals : List (ChoiceEvent α) → Finset α
  | [] => ∅
  | .arrive a :: es => insert a (arrivals es)
  | .prune :: es => arrivals es

@[simp] theorem pick_after (es : List (ChoiceEvent α)) (A : Finset α) :
    R.pick (R.after es A) = R.pick (A ∪ arrivals es) := by
  induction es generalizing A with
  | nil => rw [after, arrivals, Finset.union_empty]
  | cons ev es ih =>
    cases ev with
    | arrive a => rw [after, arrivals, ih, Finset.insert_union, Finset.union_insert]
    | prune => rw [after, arrivals, ih, R.pick_pick_union]

end Rules

section Groups

variable {α κ : Type} [LinearOrder α] [DecidableEq κ] {key : α → κ} {n : Nat}
  {A B : Finset α} {a : α}

/-- The groups that have a member above `a`. -/
def groupsAbove (key : α → κ) (A : Finset α) (a : α) : Finset κ := (A.filter (a < ·)).image key

@[simp] theorem mem_groupsAbove {k : κ} : k ∈ groupsAbove key A a ↔ ∃ b ∈ A, a < b ∧ key b = k := by
  simp [groupsAbove, and_assoc]

theorem groupsAbove_mono (h : A ⊆ B) (a : α) : groupsAbove key A a ⊆ groupsAbove key B a :=
  Finset.image_subset_image (Finset.filter_subset_filter _ h)

theorem card_groupsAbove_congr {κ' : Type} [DecidableEq κ'] {key' : α → κ'}
    (h : ∀ b c, key b = key c ↔ key' b = key' c) :
    (groupsAbove key A a).card = (groupsAbove key' A a).card := by
  unfold groupsAbove
  induction A.filter (a < ·) using Finset.induction_on with
  | empty => rfl
  | insert b s _ ih =>
    have hmem : key b ∈ s.image key ↔ key' b ∈ s.image key' := by
      simp only [Finset.mem_image, h]
    rw [Finset.image_insert, Finset.image_insert, Finset.card_insert_eq_ite, Finset.card_insert_eq_ite,
      ih, if_congr hmem rfl rfl]

/-- The members that are the greatest of their group, of the first `n` groups. -/
def firsts (key : α → κ) (n : Nat) (A : Finset α) : Finset α :=
  A.filter fun a => key a ∉ groupsAbove key A a ∧ (groupsAbove key A a).card < n

@[simp] theorem mem_firsts : a ∈ firsts key n A ↔
    a ∈ A ∧ key a ∉ groupsAbove key A a ∧ (groupsAbove key A a).card < n := by
  simp [firsts]

theorem groupsAbove_firsts (h : (groupsAbove key (firsts key n A) a).card < n) :
    groupsAbove key A a ⊆ groupsAbove key (firsts key n A) a := by
  by_contra hsub
  -- Otherwise take the greatest member of a group that was not picked.
  have hne : (A.filter fun c => a < c ∧ key c ∉ groupsAbove key (firsts key n A) a).Nonempty := by
    obtain ⟨k, hk, hnot⟩ := Finset.not_subset.mp hsub
    obtain ⟨c, hc, hac, rfl⟩ := mem_groupsAbove.mp hk
    exact ⟨c, Finset.mem_filter.mpr ⟨hc, hac, hnot⟩⟩
  obtain ⟨c, hc, hmax⟩ := Finset.exists_max_image _ id hne
  obtain ⟨hcA, hac, hnot⟩ := Finset.mem_filter.mp hc
  have habove : groupsAbove key A c ⊆ groupsAbove key (firsts key n A) a := by
    intro k hk
    obtain ⟨d, hd, hcd, rfl⟩ := mem_groupsAbove.mp hk
    by_contra hdnot
    have hle := hmax d (Finset.mem_filter.mpr ⟨hd, hac.trans hcd, hdnot⟩)
    exact absurd hcd (not_lt_of_ge hle)
  have hpicked : c ∈ firsts key n A := mem_firsts.mpr
    ⟨hcA, fun hk => hnot (habove hk), Nat.lt_of_le_of_lt (Finset.card_le_card habove) h⟩
  exact hnot (mem_groupsAbove.mpr ⟨c, hpicked, hac, rfl⟩)

def newest (key : α → κ) (n : Nat) : ChoiceRule α where
  pick := firsts key n
  subset _ := Finset.filter_subset ..
  settled A X B hX hXA := by
    have hsub : X ∪ B ⊆ A ∪ B := Finset.union_subset_union_left hXA
    ext a
    rw [mem_firsts, mem_firsts]
    constructor
    · rintro ⟨hmem, hkey, hcard⟩
      have hle : groupsAbove key (firsts key n A) a ⊆ groupsAbove key (X ∪ B) a :=
        groupsAbove_mono (hX.trans Finset.subset_union_left) a
      have hA := groupsAbove_firsts (Nat.lt_of_le_of_lt (Finset.card_le_card hle) hcard)
      have heq : groupsAbove key (A ∪ B) a = groupsAbove key (X ∪ B) a := by
        apply Finset.Subset.antisymm _ (groupsAbove_mono hsub a)
        intro k hk
        obtain ⟨c, hc, hac, hck⟩ := mem_groupsAbove.mp hk
        rcases Finset.mem_union.mp hc with hc | hc
        · exact hle (hA (mem_groupsAbove.mpr ⟨c, hc, hac, hck⟩))
        · exact mem_groupsAbove.mpr ⟨c, Finset.mem_union_right X hc, hac, hck⟩
      rw [heq]
      exact ⟨hsub hmem, hkey, hcard⟩
    · rintro ⟨hmem, hkey, hcard⟩
      refine ⟨?_, fun hk => hkey (groupsAbove_mono hsub a hk),
        Nat.lt_of_le_of_lt (Finset.card_le_card (groupsAbove_mono hsub a)) hcard⟩
      rcases Finset.mem_union.mp hmem with ha | ha
      · have hAB : groupsAbove key A a ⊆ groupsAbove key (A ∪ B) a :=
          groupsAbove_mono Finset.subset_union_left a
        have hpicked : a ∈ firsts key n A := mem_firsts.mpr
          ⟨ha, fun hk => hkey (hAB hk), Nat.lt_of_le_of_lt (Finset.card_le_card hAB) hcard⟩
        exact Finset.mem_union_left B (hX hpicked)
      · exact Finset.mem_union_right X ha

/-- Take the first member of every group, up to `n` groups with those seen before. -/
def scan (key : α → κ) (n : Nat) : List α → List κ → List α
  | [], _ => []
  | a :: l, seen =>
    if key a ∈ seen then scan key n l seen
    else if n ≤ seen.length then []
    else a :: scan key n l (key a :: seen)

@[simp] theorem groupsAbove_cons {l : List α} {b : α} (h : a < b) :
    groupsAbove key (b :: l).toFinset a = insert (key b) (groupsAbove key l.toFinset a) := by
  ext k
  simp only [mem_groupsAbove, List.mem_toFinset, List.mem_cons, Finset.mem_insert]
  constructor
  · rintro ⟨c, rfl | hc, hac, rfl⟩
    · exact .inl rfl
    · exact .inr ⟨c, hc, hac, rfl⟩
  · rintro (rfl | ⟨c, hc, hac, rfl⟩)
    · exact ⟨b, .inl rfl, h, rfl⟩
    · exact ⟨c, .inr hc, hac, rfl⟩

@[grind =] theorem groupsAbove_head {l : List α} (h : ∀ b ∈ l, b < a) :
    groupsAbove key (a :: l).toFinset a = ∅ := by
  apply Finset.eq_empty_of_forall_notMem
  intro k hk
  obtain ⟨b, hb, hab, -⟩ := mem_groupsAbove.mp hk
  rcases List.mem_cons.mp (List.mem_toFinset.mp hb) with rfl | hb
  · exact lt_irrefl _ hab
  · exact lt_asymm hab (h b hb)

omit [LinearOrder α] in
theorem mem_of_mem_scan {l : List α} {seen : List κ} (h : a ∈ scan key n l seen) : a ∈ l := by
  induction l generalizing seen with
  | nil => exact h
  | cons b l ih =>
    unfold scan at h
    split at h
    · exact List.mem_cons_of_mem b (ih h)
    · split at h
      · cases h
      · rcases List.mem_cons.mp h with rfl | h
        · exact List.mem_cons_self
        · exact List.mem_cons_of_mem b (ih h)

theorem head_mem_scan {l : List α} {seen : List κ} (h : ∀ b ∈ l, b < a) :
    a ∈ scan key n (a :: l) seen ↔ key a ∉ seen ∧ seen.length < n := by
  have hnot : ∀ seen', a ∉ scan key n l seen' :=
    fun _ hmem => lt_irrefl a (h a (mem_of_mem_scan hmem))
  unfold scan
  split
  · rename_i hk
    simp [hnot, hk]
  · rename_i hk
    split
    · rename_i hn
      simp [hn]
    · rename_i hn
      simp [hk, Nat.lt_of_not_le hn]

theorem mem_scan {l : List α} (hl : l.Pairwise (· > ·)) {seen : List κ} (hseen : seen.Nodup) :
    a ∈ scan key n l seen ↔ a ∈ l ∧ key a ∉ seen ∧ key a ∉ groupsAbove key l.toFinset a ∧
      (seen.toFinset ∪ groupsAbove key l.toFinset a).card < n := by
  induction l generalizing seen with
  | nil => simp [scan]
  | cons b l ih =>
    obtain ⟨hb, hrest⟩ := List.pairwise_cons.mp hl
    have hcard : seen.toFinset.card = seen.length := List.toFinset_card_of_nodup hseen
    by_cases hmem : a ∈ b :: l
    · rcases List.mem_cons.mp hmem with rfl | hal
      · rw [head_mem_scan hb, groupsAbove_head hb, Finset.union_empty, hcard]
        simp
      · have hab : a ≠ b := (hb a hal).ne
        rw [groupsAbove_cons (hb a hal), Finset.mem_insert, not_or]
        unfold scan
        split
        · rename_i hk
          have hunion : seen.toFinset ∪ insert (key b) (groupsAbove key l.toFinset a) =
              seen.toFinset ∪ groupsAbove key l.toFinset a := by
            rw [Finset.union_insert, ← Finset.insert_union,
              Finset.insert_eq_of_mem (List.mem_toFinset.mpr hk)]
          have hne : key a ∉ seen → key a ≠ key b := fun hka heq => hka (heq ▸ hk)
          rw [ih hrest hseen, hunion]
          exact ⟨fun ⟨_, hka, hg, hn⟩ => ⟨hmem, hka, ⟨hne hka, hg⟩, hn⟩,
            fun ⟨_, hka, hg, hn⟩ => ⟨hal, hka, hg.2, hn⟩⟩
        · rename_i hk
          have hunion : seen.toFinset ∪ insert (key b) (groupsAbove key l.toFinset a) =
              (key b :: seen).toFinset ∪ groupsAbove key l.toFinset a := by
            rw [List.toFinset_cons, Finset.union_insert, Finset.insert_union]
          split
          · rename_i hn
            have hle : seen.toFinset.card ≤
                (seen.toFinset ∪ insert (key b) (groupsAbove key l.toFinset a)).card :=
              Finset.card_le_card Finset.subset_union_left
            exact ⟨nofun, fun ⟨_, _, _, hlt⟩ => by omega⟩
          · rw [List.mem_cons, or_iff_right hab, ih hrest (List.nodup_cons.mpr ⟨hk, hseen⟩), hunion,
              List.mem_cons, not_or]
            exact ⟨fun ⟨_, ⟨hne, hka⟩, hg, hn⟩ => ⟨hmem, hka, ⟨hne, hg⟩, hn⟩,
              fun ⟨_, hka, ⟨hne, hg⟩, hn⟩ => ⟨hal, ⟨hne, hka⟩, hg, hn⟩⟩
    · exact ⟨fun h => absurd (mem_of_mem_scan h) hmem, fun h => absurd h.1 hmem⟩

theorem scan_id {l : List α} (hl : l.Nodup) {seen : List α} (hseen : ∀ a ∈ l, a ∉ seen) :
    scan id n l seen = l.take (n - seen.length) := by
  induction l generalizing seen with
  | nil => rw [scan, List.take_nil]
  | cons b l ih =>
    obtain ⟨hb, hl⟩ := List.nodup_cons.mp hl
    unfold scan
    rw [if_neg (show id b ∉ seen from hseen b List.mem_cons_self)]
    split
    · rename_i hn
      rw [Nat.sub_eq_zero_of_le hn, List.take_zero]
    · rename_i hn
      have hnew : ∀ a ∈ l, a ∉ id b :: seen := by
        intro a ha hmem
        rcases List.mem_cons.mp hmem with rfl | hmem
        · exact hb ha
        · exact hseen a (List.mem_cons_of_mem b ha) hmem
      rw [ih hl hnew, List.length_cons, ← List.take_succ_cons]
      congr 1
      omega

@[simp] theorem mem_scan_nil {l : List α} (hl : l.Pairwise (· > ·)) :
    a ∈ scan key n l [] ↔ a ∈ (newest key n).pick l.toFinset := by
  rw [mem_scan hl List.nodup_nil]
  simp [newest, mem_firsts]

end Groups

end ChoiceRule

end ProxBack.Lib
