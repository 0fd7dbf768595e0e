import ProxBack.Browse.Listing

/-! Entries looked up by the paths an index has for them. -/
namespace ProxBack.Browse
open Lib Agent.Tar Engine

/-- `Find`. -/
def findName (narrow : Char → Bool) (entries : List Entry) (p : String) : Option Entry :=
  entries.find? fun e => e.path = normalizeName narrow p

theorem find_eq : find = findName ascii := by
  funext entries p
  rw [find, findName, normalizePath_eq]

/-- The entries are under what the names of archive members have been normalised to. -/
def UnderNames (narrow : Char → Bool) (entries : List Entry) : Prop :=
  ∀ e ∈ entries, e.path ≠ "" ∧ ∃ name, e.path = normalizeName narrow name

/-- The listing has what is in the directory with these segments, each name of it once. -/
structure ListsContent (entries : List Entry) (dir : List (List Char)) (out : List Entry) : Prop where
  nodup : (out.map Entry.path).Nodup
  stands : ∀ x ∈ out, ∃ name, Proper (dir ++ [name]) ∧ Stands entries dir name x
  all : ∀ e ∈ entries, ∀ name rest, Proper (dir ++ name :: rest) → e.path = relText (dir ++ name :: rest) →
    ∃ x ∈ out, x.path = within dir name

/-- The path of an entry leads back to it: to an entry at the path, and to the content of a directory. -/
structure ByPath (lower : String → String) (narrow : Char → Bool) (entries : List Entry) (e : Entry) : Prop where
  found : ∃ e', findName narrow entries e.path = some e' ∧ e'.path = e.path
  content : e.dir = true → ∀ dir, Proper dir → e.path = relText dir →
    ListsContent entries dir (children lower narrow entries e.path)

section
variable {lower : String → String} {narrow : Char → Bool} {entries : List Entry} {e : Entry} {name : String}

theorem UnderNames.relative (h : UnderNames narrow entries) : ∀ e ∈ entries, Relative e.path := by
  intro e he
  obtain ⟨hne, name, hname⟩ := h e he
  rw [normalizeName_eq] at hname
  refine ⟨cleaned narrow name, ?_, cleaned_proper name, hname⟩
  intro hnil
  rw [hnil] at hname
  exact hne hname

theorem findName_path {p : String} (h : findName narrow entries p = some e) : e.path = normalizeName narrow p := by
  simpa using List.find?_some h

theorem byPath_iff (h : UnderNames narrow entries) (he : e ∈ entries) (hname : e.path = normalizeName narrow name) :
    ByPath lower narrow entries e ↔ ¬ BelowDrive narrow name := by
  rw [← idempotent_iff, ← hname]
  constructor
  · rintro ⟨⟨e', hfind, hpath⟩, -⟩
    exact (findName_path hfind).symm.trans hpath
  · intro hfix
    refine ⟨?_, fun _ dir hdir hpath => ?_⟩
    · have hsome : (findName narrow entries e.path).isSome := by
        rw [findName, List.find?_isSome]
        exact ⟨e, he, decide_eq_true hfix.symm⟩
      obtain ⟨e', he'⟩ := Option.isSome_iff_exists.mp hsome
      exact ⟨e', he', (findName_path he').trans hfix⟩
    · have hcleaned : cleaned narrow e.path = dir := by
        rw [normalizeName_eq] at hfix
        exact relText_injective (cleaned_proper _) hdir (hfix.trans hpath)
      subst hcleaned
      exact ⟨children_nodup h.relative, fun x hx => of_mem_children h.relative hx, fun e' he' name' rest hproper hpath' =>
        exists_child h.relative he' hproper hpath'⟩

theorem of_mem_indexLoop {stream : String} {ms : List (Item × Nat)} {err : Engine.Err} {acc entries : List Entry}
    {truncated : Bool} (h : indexLoop stream ms err acc = .ok (entries, truncated)) (he : e ∈ entries) :
    e ∈ acc ∨ ∃ m ∈ ms, entryOf stream m = some e := by
  induction ms generalizing acc with
  | nil =>
    rw [indexLoop] at h
    split at h
    · cases h
      exact .inl he
    split at h
    · cases h
      exact .inl he
    · cases h
  | cons m ms ih =>
    rw [indexLoop] at h
    have hlater : e ∈ acc ∨ (∃ m ∈ ms, entryOf stream m = some e) → e ∈ acc ∨ ∃ m' ∈ m :: ms, entryOf stream m' = some e :=
      Or.imp_right fun ⟨m', hm', heq⟩ => ⟨m', List.mem_cons_of_mem _ hm', heq⟩
    cases hm : entryOf stream m with
    | none =>
      rw [hm] at h
      exact hlater (ih h)
    | some x =>
      rw [hm] at h
      have hsnoc : e ∈ acc ++ [x] → e ∈ acc ∨ ∃ m' ∈ m :: ms, entryOf stream m' = some e := by
        intro hmem
        rcases List.mem_append.mp hmem with hmem | hmem
        · exact .inl hmem
        · exact .inr ⟨m, List.mem_cons_self, List.mem_singleton.mp hmem ▸ hm⟩
      dsimp only at h
      split at h
      · cases h
        exact hsnoc he
      · rcases ih h with hmem | ⟨m', hm', heq⟩
        · exact hsnoc hmem
        · exact .inr ⟨m', List.mem_cons_of_mem _ hm', heq⟩

theorem entryOf_path {stream : String} {m : Item × Nat} (h : entryOf stream m = some e) :
    e.path ≠ "" ∧ e.path = normalizeName ascii m.1.header.name := by
  unfold entryOf at h
  dsimp only at h
  split at h
  · cases h
  · rename_i hne
    cases h
    exact ⟨hne, congrFun normalizePath_eq _⟩

theorem indexTar_under {fmt : Format} {bytes : Bytes} {stream : String} {truncated : Bool}
    (h : indexTar fmt bytes stream = .ok (entries, truncated)) : UnderNames ascii entries := by
  intro e he
  obtain ⟨m, -, hm⟩ := (of_mem_indexLoop h he).resolve_left List.not_mem_nil
  obtain ⟨hne, hpath⟩ := entryOf_path hm
  exact ⟨hne, _, hpath⟩

end

def colonTar : Bytes := headerBlock "a::b" "0000644" "006424" 48 "" ++ List.replicate 1024 0

def colonItem : Item := ⟨⟨"a::b", .reg, 0o644, 0, 62135596800 * 10 ^ 9⟩, [], none⟩

def colonEntry : Entry := ⟨"a:b", 0, 0o644, 62135596800 * 10 ^ 9, false, "files.tar", 0⟩

theorem colon_blocks :
    next ustar [] ⟨colonTar, none⟩ = .entry colonItem ⟨List.replicate 1024 0, none⟩ ∧
    next ustar [] ⟨List.replicate 1024 0, none⟩ = .ended .eof ∧
    normalizeName ascii "a::b" = "a:b" ∧ normalizeName ascii "a:b" = "ab" ∧
    findName ascii [colonEntry] colonEntry.path = none := by decide +kernel

theorem members_colonTar : members ustar colonTar.length [] ⟨colonTar, none⟩ = ([(colonItem, blockSize)], .eof) := by
  obtain ⟨hentry, hend, -⟩ := colon_blocks
  rw [members_eq, hentry]
  dsimp only
  rw [members_eq, hend, Nat.sub_self, Nat.zero_add]

theorem colon_indexed : indexTar ustar colonTar "files.tar" = .ok ([colonEntry], false) := by
  have hentry : entryOf "files.tar" (colonItem, blockSize) = some colonEntry := by
    have hname : normalizeName ascii colonItem.header.name = "a:b" := colon_blocks.2.2.1
    unfold entryOf
    rw [normalizePath_eq]
    dsimp only
    rw [hname]
    decide
  have hcap : ¬ maxIndexEntries ≤ ([] ++ [colonEntry]).length := by
    unfold maxIndexEntries
    decide
  unfold indexTar
  rw [members_colonTar]
  dsimp only
  rw [indexLoop, hentry]
  dsimp only
  rw [if_neg hcap, indexLoop]
  rfl

end ProxBack.Browse
