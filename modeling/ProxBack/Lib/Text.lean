import Mathlib.Data.List.DropRight
import Mathlib.Data.List.Infix
import ProxBack.Lib.Lists

/-! Text as lists of characters, with the operations of a standard library on it. -/
namespace ProxBack.Lib.Text

def isSpace (c : Char) : Bool :=
  c.toNat ∈ [0x09, 0x0A, 0x0B, 0x0C, 0x0D, 0x20, 0x85, 0xA0, 0x1680, 0x2028, 0x2029, 0x202F, 0x205F,
    0x3000] ∨ (0x2000 ≤ c.toNat ∧ c.toNat ≤ 0x200A)

def trimSpace (s : List Char) : List Char := (s.dropWhile isSpace).rdropWhile isSpace

/-- `strings.Trim`. -/
def trimOf (cutset s : List Char) : List Char :=
  (s.dropWhile (· ∈ cutset)).rdropWhile (· ∈ cutset)

theorem mem_of_mem_trimOf {cutset s : List Char} {c : Char} (h : c ∈ trimOf cutset s) : c ∈ s :=
  (List.dropWhile_suffix _).subset ((List.rdropWhile_prefix _ _).subset h)

theorem trimOf_of_ends {cutset s : List Char} (hhead : ∀ c ∈ s.head?, c ∉ cutset)
    (hlast : ∀ c ∈ s.getLast?, c ∉ cutset) : trimOf cutset s = s := by
  have hdrop : s.dropWhile (· ∈ cutset) = s := by
    cases s with
    | nil => rfl
    | cons c s => exact List.dropWhile_cons_of_neg (by simpa using hhead c rfl)
  rw [trimOf, hdrop, List.rdropWhile_eq_self_iff]
  intro hne
  simpa using hlast _ (List.getLast?_eq_some_getLast hne)

@[grind =] theorem trimOf_cons {cutset s : List Char} {c : Char} (h : c ∈ cutset) :
    trimOf cutset (c :: s) = trimOf cutset s := by
  rw [trimOf, List.dropWhile_cons_of_pos (by simpa using h), trimOf]

@[grind =] theorem trimOf_concat {cutset s : List Char} {c : Char} (h : c ∈ cutset) :
    trimOf cutset (s ++ [c]) = trimOf cutset s := by
  rw [trimOf, List.dropWhile_append]
  split
  · rename_i hnil
    rw [List.dropWhile_cons_of_pos (by simpa using h), trimOf, List.isEmpty_iff.mp hnil]
    rfl
  · rw [List.rdropWhile_concat_pos _ _ _ (by simpa using h), trimOf]

def toSlashes (s : List Char) : List Char := s.map fun c => if c = '\\' then '/' else c

@[grind =] theorem toSlashes_of_not_mem {s : List Char} (h : '\\' ∉ s) : toSlashes s = s := by
  calc toSlashes s = s.map id := by
        apply List.map_congr_left
        intro c hc
        exact if_neg fun heq : c = '\\' => h (heq ▸ hc)
    _ = s := List.map_id s

theorem not_mem_toSlashes (s : List Char) : '\\' ∉ toSlashes s := by
  intro h
  obtain ⟨c, -, hc⟩ := List.mem_map.mp h
  split at hc
  · cases hc
  · rename_i hne
    exact hne hc

@[simp]
theorem trimSpace_eq_nil {s : List Char} : trimSpace s = [] ↔ ∀ c ∈ s, isSpace c = true := by
  rw [trimSpace, List.rdropWhile_eq_nil_iff]
  constructor
  · intro h c hc
    by_contra hspace
    have hdrop : s.dropWhile isSpace ≠ [] := fun hnil => hspace (List.dropWhile_eq_nil_iff.mp hnil c hc)
    have hhead := List.head_dropWhile_not isSpace hdrop
    rw [h _ (List.head_mem hdrop)] at hhead
    cases hhead
  · intro h c hc
    exact h c ((List.dropWhile_suffix _).subset hc)

@[grind =] theorem trimSpace_concat {s : List Char} {c : Char} (h : isSpace c = true) :
    trimSpace (s ++ [c]) = trimSpace s := by
  unfold trimSpace
  rw [List.dropWhile_append]
  split
  · rename_i hnil
    rw [List.isEmpty_iff.mp hnil, List.dropWhile_cons_of_pos h, List.dropWhile_nil]
  · exact List.rdropWhile_concat_pos _ _ _ h

@[simp] theorem trimSpace_trimSpace (s : List Char) : trimSpace (trimSpace s) = trimSpace s := by
  have hhead : (trimSpace s).dropWhile isSpace = trimSpace s := by
    -- what is left of the trimmed text is a beginning of one that starts with no space
    cases ht : trimSpace s with
    | nil => rfl
    | cons c rest =>
      obtain ⟨tail, htail⟩ := List.rdropWhile_prefix isSpace (s.dropWhile isSpace)
      have hdrop : s.dropWhile isSpace = c :: (rest ++ tail) := by
        rw [← htail, ← List.cons_append, ← ht, trimSpace]
      have hc : isSpace c = false := by
        have hagain := List.dropWhile_idempotent isSpace (l := s)
        rw [hdrop] at hagain
        by_contra hspace
        rw [List.dropWhile_cons_of_pos (by simpa using hspace)] at hagain
        have hlen := (List.dropWhile_suffix isSpace (l := rest ++ tail)).length_le
        rw [hagain, List.length_cons] at hlen
        omega
      rw [List.dropWhile_cons_of_neg (by simp [hc])]
  rw [trimSpace, hhead, trimSpace, List.rdropWhile_idempotent]

@[grind =]
theorem trimSpace_map {f : Char → Char} (h : ∀ c, isSpace (f c) = isSpace c) (s : List Char) :
    trimSpace (s.map f) = (trimSpace s).map f := by
  have hcomp : isSpace ∘ f = isSpace := funext h
  rw [trimSpace, trimSpace, List.dropWhile_map, hcomp, List.rdropWhile, List.rdropWhile,
    ← List.map_reverse, List.dropWhile_map, hcomp, List.map_reverse]

/-- `strings.TrimSpace`, of a string. -/
def trimmed (s : String) : String := String.ofList (trimSpace s.toList)

@[simp] theorem trimmed_trimmed (s : String) : trimmed (trimmed s) = trimmed s := by
  rw [trimmed, trimmed, String.toList_ofList, trimSpace_trimSpace]

theorem trimSpace_of_ends {s : List Char} (hhead : ∀ c ∈ s.head?, isSpace c = false)
    (hlast : ∀ c ∈ s.getLast?, isSpace c = false) : trimSpace s = s := by
  have hdrop : s.dropWhile isSpace = s := by
    cases s with
    | nil => rfl
    | cons c s => rw [List.dropWhile_cons_of_neg (by simp [hhead c rfl])]
  rw [trimSpace, hdrop, List.rdropWhile_eq_self_iff]
  intro hne
  simp [hlast _ (List.getLast?_eq_some_getLast hne)]

@[grind =]
theorem trimSpace_of_forall {s : List Char} (h : ∀ c ∈ s, isSpace c = false) : trimSpace s = s :=
  trimSpace_of_ends (fun c hc => h c (List.mem_of_mem_head? hc)) fun c hc => h c (List.mem_of_getLast? hc)

theorem mem_of_mem_splitOnP {α : Type} {p : α → Bool} {s part : List α} (h : part ∈ s.splitOnP p) :
    ∀ c ∈ part, c ∈ s ∧ p c = false := by
  induction s generalizing part with
  | nil =>
    rw [List.splitOnP_nil, List.mem_singleton] at h
    rw [h]
    nofun
  | cons x s ih =>
    obtain ⟨first, rest, hs⟩ := List.exists_cons_of_ne_nil (List.splitOnP_ne_nil p s)
    rw [List.splitOnP_cons_eq_if_modifyHead, hs] at h
    have hold : ∀ part ∈ first :: rest, ∀ c ∈ part, c ∈ x :: s ∧ p c = false := fun part hpart c hc =>
      have hin := ih (hs ▸ hpart) c hc
      ⟨List.mem_cons_of_mem _ hin.1, hin.2⟩
    by_cases hx : p x
    · rw [if_pos hx] at h
      rcases List.mem_cons.mp h with rfl | h
      · nofun
      · exact hold part h
    · rw [if_neg hx] at h
      rcases List.mem_cons.mp h with rfl | h
      · intro c hc
        rcases List.mem_cons.mp hc with rfl | hc
        · exact ⟨List.mem_cons_self, by simpa using hx⟩
        · exact hold first List.mem_cons_self c hc
      · exact hold part (List.mem_cons_of_mem _ h)

def fields (s : List Char) : List (List Char) := (s.splitOnP isSpace).filter fun part => part ≠ []

def IsWord (s : List Char) : Prop := s ≠ [] ∧ ∀ c ∈ s, isSpace c = false

instance (s : List Char) : Decidable (IsWord s) := inferInstanceAs (Decidable (_ ∧ _))

@[grind =] theorem fields_word {s : List Char} (h : IsWord s) : fields s = [s] := by
  rw [fields, List.splitOnP_eq_singleton h.2]
  exact List.filter_cons_of_pos (decide_eq_true h.1)

@[grind =] theorem fields_cons {s rest : List Char} (h : IsWord s) :
    fields (s ++ ' ' :: rest) = s :: fields rest := by
  rw [fields, List.splitOnP_append_cons _ _ (by decide), List.splitOnP_eq_singleton h.2]
  exact List.filter_cons_of_pos (decide_eq_true h.1)

theorem isWord_of_mem_fields {s part : List Char} (h : part ∈ fields s) : IsWord part := by
  obtain ⟨hmem, hne⟩ := List.mem_filter.mp h
  exact ⟨of_decide_eq_true hne, fun c hc => (mem_of_mem_splitOnP hmem c hc).2⟩

@[simp] theorem fields_dropWhile (s : List Char) : fields (s.dropWhile isSpace) = fields s := by
  induction s with
  | nil => rfl
  | cons c s ih =>
    by_cases hc : isSpace c = true
    · rw [List.dropWhile_cons_of_pos hc, ih, fields, fields, List.splitOnP_cons_eq_if_modifyHead,
        if_pos hc]
      rfl
    · rw [List.dropWhile_cons_of_neg hc]

@[simp] theorem fields_rdropWhile (s : List Char) : fields (s.rdropWhile isSpace) = fields s := by
  induction s using List.reverseRecOn with
  | nil => rfl
  | append_singleton s c ih =>
    by_cases hc : isSpace c = true
    · rw [List.rdropWhile_concat_pos _ _ _ hc, ih, fields, fields, List.splitOnP_append_cons _ _ hc,
        List.filter_append]
      exact (List.append_nil _).symm
    · rw [List.rdropWhile_concat_neg _ _ _ hc]

@[simp] theorem fields_trimSpace (s : List Char) : fields (trimSpace s) = fields s := by
  rw [trimSpace, fields_rdropWhile, fields_dropWhile]

end ProxBack.Lib.Text
