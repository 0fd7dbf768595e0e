import ProxBack.Agent.Disk
import ProxBack.Agent.Walk

/-! What unpacking the entries of an archive leaves on the disk. -/
namespace ProxBack.Agent
open Lib Prog Engine Tar

abbrev Entry := List (List Char) × Kind

def itemOf : Entry → Item
  | (names, .file info data) => addFile (joined names) info data
  | (names, .dir info) => addDir (joined names) info

@[simp] theorem addEntry_eq (root : List Char) (x : Below) (k : Kind) :
    addEntry root (x, k) = itemOf (root :: segments x, k) := by
  cases k <;> rfl

section Unpack

variable {cwd : String} {d : Disk} {dest : List (List Char)} {e e' : Entry} {es : List Entry}

def unpack (dest : List (List Char)) (d : Disk) : Entry → Disk
  | (names, .file _ data) => d.withFile (dest ++ names) data
  | (names, .dir _) => d.withDirs (dest ++ names)

def Clear (dest : List (List Char)) (d : Disk) : Entry → Prop
  | (names, .file _ _) => d.blocked (dest ++ names).dropLast = false ∧ d (dest ++ names) ≠ some .dir
  | (names, .dir _) => d.blocked (dest ++ names) = false

def Sound (e : Entry) : Prop := Proper e.1 ∧ e.1 ≠ []

@[grind =]
theorem clean_itemOf (h : Sound e) : unixPaths.clean (itemOf e).header.name = relText e.1 := by
  obtain ⟨names, ⟨info, data⟩ | ⟨info⟩⟩ := e
  · exact unixClean_relText h.1 h.2
  · have hlast : ¬ (joined names).getLast? = some '/' := fun hl => joined_last h.1.named '/' hl rfl
    show unixClean (.ofList ((if (joined names).getLast? = some '/' then _ else joined names) ++ ['/'])) = _
    rw [if_neg hlast, unixClean_concat h.1 h.2]

section Passes

variable (hdest : Proper dest) (hne : dest ≠ []) {names : List (List Char)} {info : Info} {data : Bytes}

include hdest hne

theorem extractEntry_file (h : Sound (names, .file info data)) :
    extractEntry unixPaths (absText dest) (itemOf (names, .file info data)) =
      extractFile unixPaths (absText (dest ++ names)) (itemOf (names, .file info data)) := by
  obtain ⟨hdot, hpass⟩ := passes h.1 h.2
  have hbelow : hasPrefix (absText (dest ++ names)) (absText dest ++ unixPaths.separator) = true := by
    rw [hasPrefix_absText h.1 h.2]
    exact decide_eq_true hne
  unfold extractEntry
  dsimp only
  rw [clean_itemOf h, join_absText hdest h.1 h.2, if_neg hdot, if_neg hpass, if_neg (not_not_intro hbelow)]
  rfl

theorem extractEntry_dir (h : Sound (names, .dir info)) :
    run (serve cwd) (extractEntry unixPaths (absText dest) (itemOf (names, .dir info))) d =
      if d.blocked (dest ++ names) then (some (.createDir (absText (dest ++ names)) Disk.notDir), d)
      else (none, d.withDirs (dest ++ names)) := by
  obtain ⟨hdot, hpass⟩ := passes h.1 h.2
  have hbelow : hasPrefix (absText (dest ++ names)) (absText dest ++ unixPaths.separator) = true := by
    rw [hasPrefix_absText h.1 h.2]
    exact decide_eq_true hne
  have hstep : serve cwd (.mkdirAll (absText (dest ++ names)) (permOf info.perm 0o755)) d =
      answered d (d.mkdirAll (dest ++ names)) := by
    rw [serve, pathSegments_absText (hdest.append h.1)]
  unfold extractEntry
  dsimp only
  rw [clean_itemOf h, join_absText hdest h.1 h.2, if_neg hdot, if_neg hpass, if_neg (not_not_intro hbelow)]
  rw [Disk.mkdirAll_proper (hdest.append h.1)] at hstep
  cases hblocked : d.blocked (dest ++ names) with
  | true =>
    rw [hblocked] at hstep
    simp only [itemOf, addDir, header, run_call, hstep]
    rfl
  | false =>
    rw [hblocked] at hstep
    simp only [itemOf, addDir, header, run_call, hstep]
    rfl

end Passes

theorem extractEntry_root (h : Sound e) :
    extractEntry unixPaths (absText []) (itemOf e) = .ret (some (.unsafeEntry (itemOf e).header.name)) := by
  obtain ⟨hdot, hpass⟩ := passes h.1 h.2
  have hbelow : ¬ hasPrefix (absText ([] ++ e.1)) (absText [] ++ unixPaths.separator) = true := by
    rw [hasPrefix_absText h.1 h.2]
    simp
  unfold extractEntry
  dsimp only
  rw [clean_itemOf h, join_absText proper_nil h.1 h.2, if_neg hdot, if_neg hpass, if_pos hbelow]

theorem extractEntry_run (hdest : Proper dest) (hne : dest ≠ []) (h : Sound e) (hclear : Clear dest d e) :
    run (serve cwd) (extractEntry unixPaths (absText dest) (itemOf e)) d = (none, unpack dest d e) := by
  obtain ⟨names, ⟨info, data⟩ | ⟨info⟩⟩ := e
  · rw [extractEntry_file hdest hne h]
    exact extractFile_run hdest h.1 h.2 rfl hclear.1 hclear.2
  · have hfree : d.blocked (dest ++ names) = false := hclear
    rw [extractEntry_dir hdest hne h, hfree]
    rfl

theorem extractEntry_fails (hdest : Proper dest) (hne : dest ≠ []) (h : Sound e) (hclear : ¬ Clear dest d e) :
    (run (serve cwd) (extractEntry unixPaths (absText dest) (itemOf e)) d).1 ≠ none := by
  obtain ⟨names, ⟨info, data⟩ | ⟨info⟩⟩ := e
  · rw [extractEntry_file hdest hne h]
    refine extractFile_blocked hdest h.1 h.2 ?_
    rw [Clear, not_and_or, not_not] at hclear
    exact hclear.imp_left fun hb => by simpa using hb
  · have hblocked : d.blocked (dest ++ names) = true := by simpa [Clear] using hclear
    rw [extractEntry_dir hdest hne h, hblocked]
    nofun

def Compatible (e e' : Entry) : Prop :=
  (e.2.isFile = true → ¬ e.1 <+: e'.1) ∧ (e'.2.isFile = true → ¬ e'.1 <+: e.1)

@[grind =]
theorem unpack_other {p : List (List Char)} (h : ¬ p <+: dest ++ e.1) : unpack dest d e p = d p := by
  obtain ⟨names, ⟨info, data⟩ | ⟨info⟩⟩ := e
  · have hne : p ≠ dest ++ names := fun heq => h (heq ▸ List.prefix_rfl)
    have hnot : ¬ p <+: (dest ++ names).dropLast := fun hp => h (hp.trans (List.dropLast_prefix _))
    rw [unpack, Disk.withFile, Disk.withNode, if_neg hne, Disk.withDirs, if_neg hnot]
  · rw [unpack, Disk.withDirs, if_neg h]

theorem prefix_dropLast {p path : List (List Char)} (h : p <+: path) (hne : p ≠ path) : p <+: path.dropLast := by
  obtain ⟨rest, rfl⟩ := h
  have hrest : rest ≠ [] := fun hnil => hne (by rw [hnil, List.append_nil])
  rw [List.dropLast_append_of_ne_nil hrest]
  exact List.prefix_append _ _

theorem unpack_on_way {p : List (List Char)} (h : p <+: dest ++ e.1) :
    unpack dest d e p = some .dir ∨
      ∃ info data, e.2 = .file info data ∧ p = dest ++ e.1 ∧ unpack dest d e p = some (.file data) := by
  obtain ⟨names, ⟨info, data⟩ | ⟨info⟩⟩ := e
  · by_cases hp : p = dest ++ names
    · exact .inr ⟨info, data, rfl, hp, by rw [unpack, Disk.withFile, Disk.withNode, if_pos hp]⟩
    · left
      rw [unpack, Disk.withFile, Disk.withNode, if_neg hp, Disk.withDirs, if_pos (prefix_dropLast h hp)]
  · left
    rw [unpack, Disk.withDirs, if_pos h]

@[simp] theorem blocked_unpack {path : List (List Char)} (hfree : d.blocked path = false)
    (h : e.2.isFile = true → ¬ dest ++ e.1 <+: path) : (unpack dest d e).blocked path = false := by
  by_contra hblocked
  obtain ⟨p, data, hp, hfile⟩ := Disk.blocked_iff.mp (by simpa using hblocked)
  by_cases hway : p <+: dest ++ e.1
  · rcases unpack_on_way (d := d) hway with hdir | ⟨info, data', hkind, rfl, -⟩
    · rw [hdir] at hfile
      cases hfile
    · exact h (by rw [hkind]; rfl) hp
  · rw [unpack_other hway] at hfile
    rw [Disk.blocked_iff.mpr ⟨p, data, hp, hfile⟩] at hfree
    cases hfree

theorem Clear.unpack (h : Clear dest d e') (hcompat : Compatible e e') : Clear dest (unpack dest d e) e' := by
  have hfile : e.2.isFile = true → ¬ dest ++ e.1 <+: dest ++ e'.1 := fun hf hpre =>
    hcompat.1 hf ((List.prefix_append_right_inj dest).mp hpre)
  obtain ⟨names', ⟨info', data'⟩ | ⟨info'⟩⟩ := e'
  · refine ⟨blocked_unpack h.1 fun hf hpre => hfile hf (hpre.trans (List.dropLast_prefix _)), fun hdir => ?_⟩
    have hway : ¬ dest ++ names' <+: dest ++ e.1 := fun hpre =>
      hcompat.2 rfl ((List.prefix_append_right_inj dest).mp hpre)
    rw [unpack_other hway] at hdir
    exact h.2 hdir
  · exact blocked_unpack h hfile

instance : Decidable (Clear dest d e) :=
  match e with
  | (_, .file _ _) => inferInstanceAs (Decidable (_ ∧ _))
  | (_, .dir _) => inferInstanceAs (Decidable (_ = _))

def ClearAll (dest : List (List Char)) : Disk → List Entry → Prop
  | _, [] => True
  | d, e :: es => Clear dest d e ∧ ClearAll dest (unpack dest d e) es

instance decidableClearAll (dest : List (List Char)) : (d : Disk) → (es : List Entry) → Decidable (ClearAll dest d es)
  | _, [] => inferInstanceAs (Decidable True)
  | d, e :: es =>
    have := decidableClearAll dest (unpack dest d e) es
    inferInstanceAs (Decidable (Clear dest d e ∧ ClearAll dest (unpack dest d e) es))

theorem extractLoop_clear (hdest : Proper dest) (hne : dest ≠ []) (hsound : ∀ e ∈ es, Sound e)
    (hclear : ClearAll dest d es) :
    run (serve cwd) (extractLoop unixPaths (absText dest) (es.map itemOf) .eof) d =
      (none, es.foldl (unpack dest) d) := by
  induction es generalizing d with
  | nil => rfl
  | cons e es ih =>
    rw [List.map_cons, extractLoop, run_bind, extractEntry_run hdest hne (hsound e List.mem_cons_self) hclear.1]
    exact ih (fun e' he' => hsound e' (List.mem_cons_of_mem _ he')) hclear.2

theorem extractLoop_run (hdest : Proper dest) (hne : dest ≠ []) (hsound : ∀ e ∈ es, Sound e)
    (hclear : ∀ e ∈ es, Clear dest d e) (hcompat : es.Pairwise Compatible) :
    run (serve cwd) (extractLoop unixPaths (absText dest) (es.map itemOf) .eof) d =
      (none, es.foldl (unpack dest) d) := by
  refine extractLoop_clear hdest hne hsound ?_
  clear hsound
  induction es generalizing d with
  | nil => trivial
  | cons e es ih =>
    obtain ⟨hfirst, hrest⟩ := List.pairwise_cons.mp hcompat
    exact ⟨hclear e List.mem_cons_self, ih
      (fun e' he' => (hclear e' (List.mem_cons_of_mem _ he')).unpack (hfirst e' he')) hrest⟩

def Holds (dest : List (List Char)) (d : Disk) : Entry → Prop
  | (names, .file _ data) => d (dest ++ names) = some (.file data)
  | (names, .dir _) => d (dest ++ names) = some .dir

theorem holds_unpack : Holds dest (unpack dest d e) e := by
  obtain ⟨names, ⟨info, data⟩ | ⟨info⟩⟩ := e
  · rw [Holds, unpack, Disk.withFile, Disk.withNode, if_pos rfl]
  · rw [Holds, unpack, Disk.withDirs, if_pos List.prefix_rfl]

theorem Holds.unpack (h : Holds dest d e) (hcompat : Compatible e e') : Holds dest (unpack dest d e') e := by
  by_cases hway : dest ++ e.1 <+: dest ++ e'.1
  · have hpre := (List.prefix_append_right_inj dest).mp hway
    obtain ⟨names, ⟨info, data⟩ | ⟨info⟩⟩ := e
    · exact absurd hpre (hcompat.1 rfl)
    · rcases unpack_on_way (d := d) hway with hdir | ⟨info', data', hkind, hsame, -⟩
      · exact hdir
      · -- a file at the directory's own place would be on its way
        refine absurd ?_ (hcompat.2 (by rw [hkind]; rfl))
        rw [← List.append_cancel_left hsame]
  · obtain ⟨names, ⟨info, data⟩ | ⟨info⟩⟩ := e
    · rw [Holds, unpack_other hway]
      exact h
    · rw [Holds, unpack_other hway]
      exact h

theorem Holds.foldl (h : Holds dest d e) (hcompat : ∀ e' ∈ es, Compatible e e') :
    Holds dest (es.foldl (Agent.unpack dest) d) e := by
  induction es generalizing d with
  | nil => exact h
  | cons e' es ih =>
    exact ih (h.unpack (hcompat e' List.mem_cons_self)) fun e'' he'' => hcompat e'' (List.mem_cons_of_mem _ he'')

theorem holds_foldl (hcompat : es.Pairwise Compatible) (he : e ∈ es) :
    Holds dest (es.foldl (unpack dest) d) e := by
  induction es generalizing d with
  | nil => cases he
  | cons e' es ih =>
    obtain ⟨hfirst, hrest⟩ := List.pairwise_cons.mp hcompat
    rcases List.mem_cons.mp he with rfl | he
    · exact holds_unpack.foldl hfirst
    · exact ih hrest he

@[grind =] theorem foldl_unpack_other {p : List (List Char)} (h : ∀ e ∈ es, ¬ p <+: dest ++ e.1) :
    es.foldl (unpack dest) d p = d p := by
  induction es generalizing d with
  | nil => rfl
  | cons e es ih =>
    rw [List.foldl_cons, ih fun e' he' => h e' (List.mem_cons_of_mem _ he'), unpack_other (h e List.mem_cons_self)]

def SameKinds (d d' : Disk) : Prop := ∀ p node, d p = some node → ∃ node', d' p = some node' ∧ node'.isFile = node.isFile

theorem SameKinds.trans {d₁ d₂ d₃ : Disk} (h : SameKinds d₁ d₂) (h' : SameKinds d₂ d₃) : SameKinds d₁ d₃ := by
  intro p node hp
  obtain ⟨node₂, hp₂, hkind₂⟩ := h p node hp
  obtain ⟨node₃, hp₃, hkind₃⟩ := h' p node₂ hp₂
  exact ⟨node₃, hp₃, hkind₃.trans hkind₂⟩

theorem Clear.sameKinds (h : Clear dest d e) : SameKinds d (Agent.unpack dest d e) := by
  intro p node hp
  by_cases hway : p <+: dest ++ e.1
  rotate_left
  · exact ⟨node, by rw [unpack_other hway, hp], rfl⟩
  rcases unpack_on_way (d := d) hway with hdir | ⟨info, data, hkind, rfl, hfile⟩
  · refine ⟨.dir, hdir, ?_⟩
    cases node with
    | dir => rfl
    | file data =>
      -- a file on the way would have been met
      obtain ⟨names, ⟨info, data'⟩ | ⟨info⟩⟩ := e
      · by_cases hself : p = dest ++ names
        · rw [Agent.unpack, Disk.withFile, Disk.withNode, if_pos hself] at hdir
          cases hdir
        · have hblocked := Disk.blocked_iff.mpr ⟨p, data, prefix_dropLast hway hself, hp⟩
          rw [h.1] at hblocked
          cases hblocked
      · have hblocked := Disk.blocked_iff.mpr ⟨p, data, hway, hp⟩
        have hfree : d.blocked (dest ++ names) = false := h
        rw [hfree] at hblocked
        cases hblocked
  · refine ⟨_, hfile, ?_⟩
    obtain ⟨names, ⟨info', data'⟩ | ⟨info'⟩⟩ := e
    · cases node with
      | dir => exact absurd hp h.2
      | file old => rfl
    · cases hkind

theorem extractLoop_ok (hdest : Proper dest) (hne : dest ≠ []) (hsound : ∀ e ∈ es, Sound e)
    (h : (run (serve cwd) (extractLoop unixPaths (absText dest) (es.map itemOf) .eof) d).1 = none) :
    SameKinds d (run (serve cwd) (extractLoop unixPaths (absText dest) (es.map itemOf) .eof) d).2 ∧
      ∀ e ∈ es, ∃ node,
        (run (serve cwd) (extractLoop unixPaths (absText dest) (es.map itemOf) .eof) d).2 (dest ++ e.1) =
          some node ∧ node.isFile = e.2.isFile := by
  induction es generalizing d with
  | nil => exact ⟨fun p node hp => ⟨node, hp, rfl⟩, nofun⟩
  | cons e es ih =>
    have hfirst := hsound e List.mem_cons_self
    rw [List.map_cons, extractLoop, run_bind] at h ⊢
    by_cases hclear : Clear dest d e
    · rw [extractEntry_run hdest hne hfirst hclear] at h ⊢
      obtain ⟨hsame, hall⟩ := ih (fun e' he' => hsound e' (List.mem_cons_of_mem _ he')) h
      refine ⟨hclear.sameKinds.trans hsame, fun e' he' => ?_⟩
      rcases List.mem_cons.mp he' with rfl | he'
      · have hholds : ∃ node, unpack dest d e' (dest ++ e'.1) = some node ∧ node.isFile = e'.2.isFile := by
          have hthere : Holds dest (unpack dest d e') e' := holds_unpack
          obtain ⟨names, ⟨info, data⟩ | ⟨info⟩⟩ := e'
          · exact ⟨_, hthere, rfl⟩
          · exact ⟨_, hthere, rfl⟩
        obtain ⟨node, hnode, hkind⟩ := hholds
        obtain ⟨node', hnode', hkind'⟩ := hsame _ _ hnode
        exact ⟨node', hnode', hkind'.trans hkind⟩
      · exact hall e' he'
    · cases hout : (run (serve cwd) (extractEntry unixPaths (absText dest) (itemOf e)) d).1 with
      | none => exact absurd hout (extractEntry_fails hdest hne hfirst hclear)
      | some err =>
        rw [hout] at h
        cases h

def content (d : Disk) (p : List (List Char)) : Option Bytes :=
  match d p with
  | some (.file data) => some data
  | _ => none

def fileAt (names : List (List Char)) : Entry → Option Bytes
  | (n, .file _ data) => if n = names then some data else none
  | (_, .dir _) => none

def lastFile (names : List (List Char)) : List Entry → Option Bytes
  | [] => none
  | e :: es => (lastFile names es).or (fileAt names e)

theorem content_eq {p : List (List Char)} {data : Bytes} : content d p = some data ↔ d p = some (.file data) := by
  unfold content
  cases d p with
  | none => exact iff_of_false nofun nofun
  | some node =>
    cases node with
    | dir => exact iff_of_false nofun nofun
    | file data' => simp

theorem content_blocked {p path : List (List Char)} (h : d.blocked path = false) (hp : p <+: path) :
    content d p = none := by
  cases hcontent : content d p with
  | none => rfl
  | some data =>
    have hfile := Disk.blocked_iff.mpr ⟨p, data, hp, content_eq.mp hcontent⟩
    rw [h] at hfile
    cases hfile

theorem content_unpack (h : Clear dest d e) (names : List (List Char)) :
    content (unpack dest d e) (dest ++ names) = (fileAt names e).or (content d (dest ++ names)) := by
  obtain ⟨n, ⟨info, data⟩ | ⟨info⟩⟩ := e
  · by_cases hn : n = names
    · subst hn
      rw [fileAt, if_pos rfl, unpack, Disk.withFile, content, Disk.withNode, if_pos rfl]
      rfl
    · rw [fileAt, if_neg hn, Option.none_or]
      have hne : dest ++ names ≠ dest ++ n := fun heq => hn (List.append_cancel_left heq).symm
      by_cases hway : dest ++ names <+: (dest ++ n).dropLast
      · rw [content_blocked h.1 hway, unpack, Disk.withFile, content, Disk.withNode, if_neg hne, Disk.withDirs,
          if_pos hway]
      · have hsame : unpack dest d (n, .file info data) (dest ++ names) = d (dest ++ names) := by
          rw [unpack, Disk.withFile, Disk.withNode, if_neg hne, Disk.withDirs, if_neg hway]
        rw [content, content, hsame]
  · rw [fileAt, Option.none_or]
    by_cases hway : dest ++ names <+: dest ++ n
    · rw [content_blocked h hway, unpack, content, Disk.withDirs, if_pos hway]
    · rw [content, content, unpack_other hway]

theorem extractLoop_content (hdest : Proper dest) (hne : dest ≠ []) (hsound : ∀ e ∈ es, Sound e)
    (h : (run (serve cwd) (extractLoop unixPaths (absText dest) (es.map itemOf) .eof) d).1 = none)
    (names : List (List Char)) :
    content (run (serve cwd) (extractLoop unixPaths (absText dest) (es.map itemOf) .eof) d).2 (dest ++ names) =
      (lastFile names es).or (content d (dest ++ names)) := by
  induction es generalizing d with
  | nil => rfl
  | cons e es ih =>
    have hfirst := hsound e List.mem_cons_self
    rw [List.map_cons, extractLoop, run_bind] at h ⊢
    by_cases hclear : Clear dest d e
    · rw [extractEntry_run hdest hne hfirst hclear] at h ⊢
      rw [lastFile, Option.or_assoc, ← content_unpack hclear]
      exact ih (fun e' he' => hsound e' (List.mem_cons_of_mem _ he')) h
    · cases hout : (run (serve cwd) (extractEntry unixPaths (absText dest) (itemOf e)) d).1 with
      | none => exact absurd hout (extractEntry_fails hdest hne hfirst hclear)
      | some err =>
        rw [hout] at h
        cases h

end Unpack

end ProxBack.Agent
