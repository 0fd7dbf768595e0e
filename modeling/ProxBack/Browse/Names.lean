import ProxBack.Browse.Index

/-! What `normalizePath` makes of a name, of which a part of the characters, or all of them, are one
byte. -/
namespace ProxBack.Browse
open Lib Agent.Tar

variable {narrow : Char → Bool} {segs : List (List Char)} {text : List Char}

def dropDrive (narrow : Char → Bool) : List Char → List Char
  | c :: ':' :: rest => if narrow c then c :: rest else c :: ':' :: rest
  | p => p

/-- `normalizePath`, for names whose `narrow` characters are one byte: the ASCII ones, in a text of
UTF-8, and all of them, if the characters are the bytes themselves. -/
def normalizeName (narrow : Char → Bool) (name : String) : String :=
  let p := unixClean (.ofList ('/' :: dropDrive narrow (Text.toSlashes name.toList)))
  let p := if p.toList.head? = some '/' then .ofList p.toList.tail else p
  if p = "." ∨ p = ".." then "" else p

def ascii (c : Char) : Bool := c.toNat < 128

theorem normalizePath_eq : normalizePath = normalizeName ascii := by
  funext name
  have hdrop : ∀ p, dropColon p = dropDrive ascii p := by
    intro p
    unfold dropColon dropDrive ascii
    split
    · rename_i c d rest
      by_cases hd : d = ':'
      · subst hd
        simp only [true_and, decide_eq_true_eq]
      · rw [if_neg fun h => hd h.1]
        split
        · rename_i heq
          exact absurd (List.cons.inj (List.cons.inj heq).2).1 hd
        · rfl
    · rename_i hshort
      split
      · exact absurd rfl (hshort _ _ _)
      · rfl
  unfold normalizePath normalizeName
  rw [hdrop]

def cleaned (narrow : Char → Bool) (name : String) : List (List Char) :=
  cleanSegments true ((dropDrive narrow (Text.toSlashes name.toList)).splitOn '/') []

theorem cleaned_proper (name : String) : Proper (cleaned narrow name) :=
  proper_cleanSegments (plain_splitOn _) proper_nil

theorem relText_kept (h : Proper segs) : ¬ (relText segs = "." ∨ relText segs = "..") := by
  by_cases hne : segs = []
  · subst hne
    decide +kernel
  · exact not_or.mpr ⟨(passes h hne).1, fun heq => (passes h hne).2 (.inr (.inl heq))⟩

theorem normalizeName_eq (name : String) : normalizeName narrow name = relText (cleaned narrow name) := by
  have hclean : unixClean (.ofList ('/' :: dropDrive narrow (Text.toSlashes name.toList))) =
      absText (cleaned narrow name) := by
    refine unixClean_of_rooted rfl ?_
    rw [List.splitOn_cons_eq_if_modifyHead, if_pos (by rfl), cleanSegments_nil, cleaned]
  have htail : (absText (cleaned narrow name)).toList = '/' :: joined (cleaned narrow name) := by
    rw [absText, String.toList_ofList]
    split
    · rename_i hnil
      rw [hnil]
      rfl
    · rename_i hne
      exact (cons_joined hne).symm
  unfold normalizeName
  dsimp only
  rw [hclean, htail, List.head?_cons, if_pos rfl, List.tail_cons, ← relText,
    if_neg (relText_kept (cleaned_proper name))]

theorem mem_cleanSegments {rooted : Bool} {stack : List (List Char)} {seg : List Char}
    (h : seg ∈ cleanSegments rooted segs stack) : seg ∈ stack ∨ seg ∈ segs ∨ seg = ['.', '.'] := by
  induction segs generalizing stack with
  | nil => exact .inl (List.mem_reverse.mp h)
  | cons s segs ih =>
    have hlater : ∀ {stack'}, seg ∈ cleanSegments rooted segs stack' → (seg ∈ stack' → seg ∈ s :: stack) →
        seg ∈ stack ∨ seg ∈ s :: segs ∨ seg = ['.', '.'] := by
      intro stack' h hsub
      rcases ih h with h | h | h
      · exact (List.mem_cons.mp (hsub h)).elim (fun h => .inr (.inl (h ▸ List.mem_cons_self))) .inl
      · exact .inr (.inl (List.mem_cons_of_mem _ h))
      · exact .inr (.inr h)
    cases stack with
    | nil =>
      rw [cleanSegments] at h
      split at h
      · exact hlater h (List.mem_cons_of_mem _)
      split at h
      · rename_i hdots
        refine hlater h fun hmem => ?_
        split at hmem
        · cases hmem
        · exact hmem
      · exact hlater h id
    | cons top below =>
      rw [cleanSegments] at h
      split at h
      · exact hlater h (List.mem_cons_of_mem _)
      split at h
      · split at h
        · exact hlater h id
        · exact hlater h fun hmem => List.mem_cons_of_mem _ (List.mem_cons_of_mem _ hmem)
      · exact hlater h id

theorem cleaned_slashes (name : String) : ∀ seg ∈ cleaned narrow name, '\\' ∉ seg := by
  intro seg hseg hback
  rcases mem_cleanSegments hseg with h | h | rfl
  · cases h
  · have hmem : '\\' ∈ dropDrive narrow (Text.toSlashes name.toList) := by
      rw [List.splitOn_eq_splitOnP] at h
      exact (Text.mem_of_mem_splitOnP h _ hback).1
    refine Text.not_mem_toSlashes name.toList ?_
    unfold dropDrive at hmem
    split at hmem
    · rename_i c rest heq
      rw [heq]
      split at hmem
      · rcases List.mem_cons.mp hmem with rfl | hmem
        · exact List.mem_cons_self
        · exact List.mem_cons_of_mem _ (List.mem_cons_of_mem _ hmem)
      · exact hmem
    · exact hmem
  · revert hback
    decide

def startsDrive (narrow : Char → Bool) : List Char → Bool
  | c :: ':' :: _ => narrow c
  | _ => false

theorem startsDrive_iff {seg : List Char} :
    startsDrive narrow seg = true ↔ ∃ c t, seg = c :: ':' :: t ∧ narrow c = true := by
  constructor
  · intro h
    unfold startsDrive at h
    split at h
    · rename_i c t
      exact ⟨c, t, rfl, h⟩
    · cases h
  · rintro ⟨c, t, rfl, hc⟩
    exact hc

@[grind =]
theorem dropDrive_of_not {seg : List Char} (h : startsDrive narrow seg = false) : dropDrive narrow seg = seg := by
  unfold startsDrive at h
  unfold dropDrive
  split
  · exact if_neg (by simpa using h)
  · rfl

@[grind =] theorem dropDrive_joined {seg : List Char} (h : Named (seg :: segs)) :
    dropDrive narrow (joined (seg :: segs)) = joined (dropDrive narrow seg :: segs) := by
  obtain ⟨c, t, rfl⟩ := List.exists_cons_of_ne_nil (h seg List.mem_cons_self).1
  rw [joined_cons, joined_cons]
  cases t with
  | nil =>
    have hshort : dropDrive narrow [c] = [c] := dropDrive_of_not rfl
    rw [hshort]
    cases segs with
    | nil => exact hshort
    | cons next segs =>
      refine dropDrive_of_not ?_
      rw [slashed_cons]
      rfl
  | cons d t =>
    by_cases hd : d = ':'
    · subst hd
      show (if narrow c then _ else _) = (if narrow c then _ else _) ++ _
      split <;> rfl
    · have hno : ∀ rest, dropDrive narrow (c :: d :: rest) = c :: d :: rest := by
        intro rest
        unfold dropDrive
        split
        · rename_i heq
          exact absurd (List.cons.inj (List.cons.inj heq).2).1 hd
        · rfl
      rw [List.cons_append, List.cons_append, hno, hno]
      rfl

theorem cleaned_relText {seg : List Char} (h : Named (seg :: segs)) (hback : ∀ s ∈ seg :: segs, '\\' ∉ s) :
    cleaned narrow (relText (seg :: segs)) = cleanSegments true (dropDrive narrow seg :: segs) [] := by
  have hslash : '\\' ∉ joined (seg :: segs) := fun hmem =>
    (mem_joined hmem).elim (by decide) fun ⟨s, hs, hc⟩ => hback s hs hc
  have hplain : Plain (dropDrive narrow seg :: segs) := by
    refine List.forall_mem_cons.mpr ⟨fun hmem => ?_, h.plain.tail⟩
    refine (h seg List.mem_cons_self).2 ?_
    unfold dropDrive at hmem
    split at hmem
    · split at hmem
      · rcases List.mem_cons.mp hmem with rfl | hmem
        · exact List.mem_cons_self
        · exact List.mem_cons_of_mem _ (List.mem_cons_of_mem _ hmem)
      · exact hmem
    · exact hmem
  rw [cleaned, relText, String.toList_ofList, Text.toSlashes_of_not_mem hslash, dropDrive_joined h,
    splitOn_joined hplain (List.cons_ne_nil _ _)]

theorem relText_injective {a b : List (List Char)} (ha : Proper a) (hb : Proper b) (h : relText a = relText b) :
    a = b := by
  have hjoined : joined a = joined b := String.ofList_injective h
  have hempty : ∀ {seg segs}, Proper (seg :: segs) → joined (seg :: segs) ≠ [] := by
    intro seg segs hproper hnil
    rw [joined_cons] at hnil
    exact (hproper seg List.mem_cons_self).1.1 (List.append_eq_nil_iff.mp hnil).1
  cases a with
  | nil =>
    cases b with
    | nil => rfl
    | cons t b => exact absurd hjoined.symm (hempty hb)
  | cons s a =>
    cases b with
    | nil => exact absurd hjoined (hempty ha)
    | cons t b => exact joined_injective ha.named.plain hb.named.plain nofun nofun hjoined

theorem fixed_iff (h : Proper segs) (hback : ∀ s ∈ segs, '\\' ∉ s) :
    normalizeName narrow (relText segs) = relText segs ↔ ∀ seg ∈ segs.head?, startsDrive narrow seg = false := by
  have hsame : normalizeName narrow (relText segs) = relText segs ↔ cleaned narrow (relText segs) = segs := by
    rw [normalizeName_eq]
    exact ⟨relText_injective (cleaned_proper _) h, congrArg relText⟩
  rw [hsame]
  cases segs with
  | nil =>
    refine iff_of_true ?_ nofun
    rw [cleaned, relText, String.toList_ofList]
    rfl
  | cons seg segs =>
    rw [cleaned_relText h.named hback]
    constructor
    · intro heq s hs
      cases hs
      by_contra hdrive
      obtain ⟨c, t, rfl, hc⟩ := startsDrive_iff.mp (Bool.eq_true_of_not_eq_false hdrive)
      have hdrop : dropDrive narrow (c :: ':' :: t) = c :: t := if_pos hc
      rw [hdrop] at heq
      -- without its colon the segment is another one, or none at all
      have hpushed : cleanSegments true ((c :: t) :: segs) [] = (c :: t) :: segs ∨
          cleanSegments true ((c :: t) :: segs) [] = segs := by
        by_cases hdot : c :: t = ['.']
        · right
          rw [hdot]
          exact cleanSegments_proper true h.tail []
        by_cases hdots : c :: t = ['.', '.']
        · right
          rw [hdots]
          exact cleanSegments_proper true h.tail []
        have hslash : '/' ∉ c :: t := by
          intro hmem
          refine (h _ List.mem_cons_self).1.2 ?_
          rcases List.mem_cons.mp hmem with rfl | hmem
          · exact List.mem_cons_self
          · exact List.mem_cons_of_mem _ (List.mem_cons_of_mem _ hmem)
        have hseg : (c :: t ≠ [] ∧ '/' ∉ c :: t) ∧ c :: t ≠ ['.'] ∧ c :: t ≠ ['.', '.'] :=
          ⟨⟨List.cons_ne_nil c t, hslash⟩, hdot, hdots⟩
        exact .inl (cleanSegments_proper true (List.forall_mem_cons.mpr ⟨hseg, h.tail⟩) [])
      rcases hpushed with hpushed | hpushed
      · rw [hpushed] at heq
        have hlen := congrArg List.length (List.cons.inj heq).1
        simp at hlen
      · rw [hpushed] at heq
        have hlen := congrArg List.length heq
        simp at hlen
    · intro hdrive
      rw [dropDrive_of_not (hdrive seg rfl)]
      exact cleanSegments_proper true h []

/-- The outermost segment of where the segments lead from the root; `depth` is how far down they have
led, and `top` what they have passed first. -/
def topmost : Option (List Char) → Nat → List (List Char) → Option (List Char)
  | top, _, [] => top
  | top, depth, seg :: rest =>
    if seg = [] ∨ seg = ['.'] then topmost top depth rest
    else if seg = ['.', '.'] then
      if depth ≤ 1 then topmost none 0 rest else topmost top (depth - 1) rest
    else if depth = 0 then topmost (some seg) 1 rest
    else topmost top (depth + 1) rest

theorem head_cleanSegments {stack : List (List Char)} (hstack : Proper stack) (h : Plain segs) :
    (cleanSegments true segs stack).head? = topmost stack.getLast? stack.length segs := by
  induction segs generalizing stack with
  | nil => rw [cleanSegments, topmost, List.head?_reverse]
  | cons seg segs ih =>
    have hpush : seg ≠ [] → seg ≠ ['.'] → seg ≠ ['.', '.'] → Proper (seg :: stack) := fun hne hdot hdots =>
      List.forall_mem_cons.mpr ⟨⟨⟨hne, h seg List.mem_cons_self⟩, hdot, hdots⟩, hstack⟩
    rw [topmost]
    cases stack with
    | nil =>
      rw [cleanSegments]
      split
      · exact ih hstack h.tail
      split
      · exact ih hstack h.tail
      · rename_i hskip hdots
        exact ih (hpush (fun h => hskip (.inl h)) (fun h => hskip (.inr h)) hdots) h.tail
    | cons top below =>
      rw [cleanSegments]
      split
      · exact ih hstack h.tail
      split
      · rw [if_neg (hstack top List.mem_cons_self).2.2]
        cases below with
        | nil => exact ih proper_nil h.tail
        | cons next below =>
          rw [List.getLast?_cons_cons, if_neg (by simp)]
          exact ih hstack.tail h.tail
      · rename_i hskip hdots
        rw [if_neg (by simp)]
        exact ih (hpush (fun h => hskip (.inl h)) (fun h => hskip (.inr h)) hdots) h.tail

def BelowDrive (narrow : Char → Bool) (name : String) : Prop :=
  ∃ seg ∈ topmost none 0 ((dropDrive narrow (Text.toSlashes name.toList)).splitOn '/'), startsDrive narrow seg = true

theorem idempotent_iff (name : String) : normalizeName narrow (normalizeName narrow name) = normalizeName narrow name ↔
    ¬ BelowDrive narrow name := by
  rw [normalizeName_eq name, fixed_iff (cleaned_proper name) (cleaned_slashes name), cleaned,
    head_cleanSegments proper_nil (plain_splitOn _)]
  simp [BelowDrive]

end ProxBack.Browse
