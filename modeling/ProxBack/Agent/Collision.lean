import ProxBack.Agent.Archive

/-! Entries of different include paths under one name. -/
namespace ProxBack.Agent
open Lib Prog Tar

def entryName (pf : Platform) (e : List Char × (Below × Kind)) : List Char :=
  (addEntry (archivePrefix pf e.1) e.2).header.name.toList

def Fresh (dest : List (List Char)) (d : Disk) : Prop :=
  d.blocked dest = false ∧ ∀ p, dest <+: p → p ≠ dest → d p = none

/-- Different files have different names, no file is below another, and a POSIX agent that unpacks
the archive has all files. -/
structure NeverCollide (pf : Platform) (clean : List Char → List Char) (m : Mount)
    (exclude paths : List (List Char)) : Prop where
  apart : ∀ e ∈ archived pf clean m exclude paths, ∀ e' ∈ archived pf clean m exclude paths,
    e.2.2.isFile = true → e'.2.2.isFile = true → (e.1, e.2.1) ≠ (e'.1, e'.2.1) →
      entryName pf e ≠ entryName pf e' ∧ ¬ entryName pf e ++ ['/'] <+: entryName pf e'
  kept : pf = .posix → ∀ its, writeTar pf clean m.stat exclude paths = .ok its →
    ∀ cwd dest d, Proper dest → dest ≠ [] → Fresh dest d →
      (run (serve cwd) (extractLoop unixPaths (absText dest) its .eof) d).1 = none ∧
      ∀ e ∈ archived pf clean m exclude paths, ∀ info data, e.2.2 = .file info data →
        (run (serve cwd) (extractLoop unixPaths (absText dest) its .eof) d).2
          (dest ++ archivePrefix pf e.1 :: segments e.2.1) = some (.file data)

/-- Include paths with one name in the archive have no file and no other entry at one path, on
Windows no two files where one is at the path of the other or of a directory it is in. -/
def Apart (pf : Platform) (clean : List Char → List Char) (m : Mount) (exclude paths : List (List Char)) :
    Prop :=
  ∀ p ∈ paths, ∀ p' ∈ paths, clean p ≠ clean p' →
    archivePrefix pf (clean p) = archivePrefix pf (clean p') →
    ∀ node node', m.stat (clean p) = some node → m.stat (clean p') = some node' →
    ∀ x info data, (x, .file info data) ∈ node.entries →
      Kept pf exclude (archivePrefix pf (clean p)) x →
    ∀ y k, (y, k) ∈ node'.entries → Kept pf exclude (archivePrefix pf (clean p')) y →
      (k.isFile = true → ¬ x <+: y ∧ ¬ y <+: x) ∧ (pf = .posix → x ≠ y)

theorem archivePrefix_proper (root : List Char) : Proper [archivePrefix .posix root] := by
  have hplain := archivePrefix_plain .posix root
  intro seg hseg
  rw [List.mem_singleton.mp hseg]
  have hsame : archivePrefix .posix root =
      if Platform.base .posix root ∈ [['/'], ['\\'], ['.'], ['.', '.'], []] then "root".toList
      else Platform.base .posix root := by
    unfold archivePrefix
    dsimp only
    rw [if_neg fun h => h.1 rfl]
  rw [hsame] at hplain ⊢
  split
  · decide
  · rename_i hbase
    rw [if_neg hbase] at hplain
    simp only [List.mem_cons, List.not_mem_nil, or_false, not_or] at hbase
    exact ⟨⟨hbase.2.2.2.2, hplain⟩, hbase.2.2.1, hbase.2.2.2.1⟩

theorem segments_proper (x : Below) : Proper (segments x) := by
  intro seg hseg
  obtain ⟨name, -, rfl⟩ := List.mem_map.mp hseg
  exact ⟨⟨name.nonempty, name.no_slash⟩, name.not_dot, name.not_dots⟩

theorem segments_prefix {x y : Below} : segments x <+: segments y ↔ x <+: y := by
  refine List.prefix_map_iff_of_injective fun a b h => ?_
  cases a
  cases b
  congr

theorem sound_entryOf (e : List Char × (Below × Kind)) : Sound (entryOf .posix e) :=
  ⟨(archivePrefix_proper e.1).append (segments_proper e.2.1), List.cons_ne_nil _ _⟩

theorem Fresh.clear {dest : List (List Char)} {d : Disk} (h : Fresh dest d) {e : Entry} (he : e.1 ≠ []) :
    Clear dest d e := by
  have hnone : ∀ p, dest <+: p → p ≠ dest → d p = none := h.2
  have hfree : ∀ path, path <+: dest ++ e.1 → d.blocked path = false := by
    intro path hpath
    by_contra hblocked
    obtain ⟨p, data, hp, hfile⟩ := Disk.blocked_iff.mp (by simpa using hblocked)
    rcases List.prefix_or_prefix_of_prefix (hp.trans hpath) (List.prefix_append dest e.1) with hpre | hpre
    · have hdest := Disk.blocked_iff.mpr ⟨p, data, hpre, hfile⟩
      rw [h.1] at hdest
      cases hdest
    · by_cases hsame : p = dest
      · rw [hsame] at hfile
        have hdest := Disk.blocked_iff.mpr ⟨dest, data, List.prefix_rfl, hfile⟩
        rw [h.1] at hdest
        cases hdest
      · rw [hnone p hpre hsame] at hfile
        cases hfile
  obtain ⟨names, ⟨info, data⟩ | ⟨info⟩⟩ := e
  · refine ⟨hfree _ (List.dropLast_prefix _), ?_⟩
    rw [hnone _ (List.prefix_append _ _) fun heq => he (List.append_right_eq_self.mp heq)]
    nofun
  · exact hfree _ List.prefix_rfl

section Names

variable {pf : Platform} {e e' : List Char × (Below × Kind)}

@[grind =] theorem entryName_file (h : e.2.2.isFile = true) :
    entryName pf e = joined (archivePrefix pf e.1 :: segments e.2.1) := by
  obtain ⟨root, x, ⟨info, data⟩ | ⟨info⟩⟩ := e
  · exact String.toList_ofList
  · cases h

theorem entry_plain (e : List Char × (Below × Kind)) : Plain (archivePrefix pf e.1 :: segments e.2.1) :=
  List.forall_mem_cons.mpr ⟨archivePrefix_plain pf e.1, (segments_named e.2.1).plain⟩

/-- Files with one name, or one below the other's, are of include paths with one name, at paths one
of which leads to the other. -/
theorem name_iff (h : e.2.2.isFile = true) (h' : e'.2.2.isFile = true) :
    (entryName pf e = entryName pf e' ∨ entryName pf e ++ ['/'] <+: entryName pf e') ↔
      archivePrefix pf e.1 = archivePrefix pf e'.1 ∧ e.2.1 <+: e'.2.1 := by
  rw [entryName_file h, entryName_file h',
    joined_below (entry_plain e) (entry_plain e') (List.cons_ne_nil _ _) (List.cons_ne_nil _ _),
    ← segments_prefix, ← List.cons_prefix_cons]
  constructor
  · rintro (heq | ⟨c, -, hc⟩)
    · rw [joined_injective (entry_plain e) (entry_plain e') (List.cons_ne_nil _ _) (List.cons_ne_nil _ _) heq]
    · exact ⟨c, hc.symm⟩
  · rintro ⟨c, hc⟩
    by_cases hnil : c = []
    · rw [hnil, List.append_nil] at hc
      exact .inl (by rw [hc])
    · exact .inr ⟨c, hnil, hc.symm⟩

end Names

section Claim

variable {pf : Platform} {clean : List Char → List Char} {m : Mount} {exclude paths : List (List Char)}
  {e e' : List Char × (Below × Kind)}

theorem not_on_way (hapart : Apart .posix clean m exclude paths)
    (he : e ∈ archived .posix clean m exclude paths) (he' : e' ∈ archived .posix clean m exclude paths)
    (hne : (e.1, e.2.1) ≠ (e'.1, e'.2.1)) (hfile : e.2.2.isFile = true) :
    ¬ (entryOf .posix e).1 <+: (entryOf .posix e').1 := by
  obtain ⟨root, x, ⟨info, data⟩ | ⟨info⟩⟩ := e
  rotate_left
  · cases hfile
  obtain ⟨root', y, k⟩ := e'
  intro hpre
  obtain ⟨hname, hsegs⟩ := List.cons_prefix_cons.mp hpre
  have hxy := segments_prefix.mp hsegs
  obtain ⟨p, hp, rfl, node, hnode, hx⟩ := mem_archived.mp he
  obtain ⟨p', hp', rfl, node', hnode', hy⟩ := mem_archived.mp he'
  by_cases hroots : clean p = clean p'
  · rw [hroots] at hnode hx hne
    rw [hnode] at hnode'
    cases hnode'
    exact file_not_above (distinct_of_stat hnode) hx hy (fun heq => hne (by rw [heq])) hxy
  · obtain ⟨k', hdir, -⟩ := ancestor_of_rootEntries hy hxy
    obtain ⟨hentry, hkept⟩ := mem_rootEntries.mp hx
    obtain ⟨hentry', hkept'⟩ := mem_rootEntries.mp hdir
    exact (hapart p hp p' hp' hroots hname node node' hnode hnode' x info data hentry hkept x k' hentry'
      hkept').2 rfl rfl

theorem archived_compatible (hroots : (paths.map clean).Nodup) (hapart : Apart .posix clean m exclude paths) :
    ((archived .posix clean m exclude paths).map (entryOf .posix)).Pairwise Compatible := by
  rw [List.pairwise_map]
  have hnodup : ((archived .posix clean m exclude paths).map fun e => (e.1, e.2.1)).Nodup :=
    archived_nodup hroots
  rw [List.Nodup, List.pairwise_map] at hnodup
  refine hnodup.imp_of_mem fun he he' hne => ⟨?_, ?_⟩
  · exact not_on_way hapart he he' hne
  · exact not_on_way hapart he' he hne.symm

/-- Nothing collides exactly where include paths with one archive name are apart. -/
theorem neverCollide_iff (hroots : (paths.map clean).Nodup) (hread : Readable clean m paths) :
    NeverCollide pf clean m exclude paths ↔ Apart pf clean m exclude paths := by
  constructor
  · rintro ⟨hnames, hkept⟩ p hp p' hp' hne hname node node' hnode hnode' x info data hx hxkept y k hy hykept
    have he : (clean p, (x, Kind.file info data)) ∈ archived pf clean m exclude paths :=
      mem_archived.mpr ⟨p, hp, rfl, node, hnode, mem_rootEntries.mpr ⟨hx, hxkept⟩⟩
    have he' : (clean p', (y, k)) ∈ archived pf clean m exclude paths :=
      mem_archived.mpr ⟨p', hp', rfl, node', hnode', mem_rootEntries.mpr ⟨hy, hykept⟩⟩
    have hfiles : k.isFile = true → ¬ x <+: y ∧ ¬ y <+: x := by
      intro hk
      have hxy := hnames _ he _ he' rfl hk fun heq => hne (Prod.mk.inj heq).1
      have hyx := hnames _ he' _ he hk rfl fun heq => hne (Prod.mk.inj heq).1.symm
      rw [← not_or, name_iff rfl hk] at hxy
      rw [← not_or, name_iff hk rfl] at hyx
      exact ⟨fun h => hxy ⟨hname, h⟩, fun h => hyx ⟨hname.symm, h⟩⟩
    refine ⟨hfiles, ?_⟩
    rintro rfl rfl
    cases k with
    | file info' data' => exact (hfiles rfl).1 List.prefix_rfl
    | dir info' =>
      -- a directory cannot be made where a file was written, nor a file written over a directory
      have hdest : Proper [['r']] := by decide
      have hfresh : Fresh [['r']] fun q => if q <+: [['r']] then some .dir else none := by
        refine ⟨rfl, fun q hq hne => if_neg fun hq' => hne ?_⟩
        exact (hq'.eq_of_length (Nat.le_antisymm hq'.length_le hq.length_le))
      obtain ⟨hok, hall⟩ := hkept rfl _ (writeTar_eq hread) "/" [['r']] _ hdest (List.cons_ne_nil _ _) hfresh
      have hfile := hall _ he info data rfl
      have hdir := (extractLoop_ok hdest (List.cons_ne_nil _ _) (fun e he => by
        obtain ⟨e, -, rfl⟩ := List.mem_map.mp he
        exact sound_entryOf e) hok).2 _ (List.mem_map_of_mem he')
      obtain ⟨node, hnode, hkind⟩ := hdir
      have hplace : (entryOf .posix (clean p', (x, Kind.dir info'))).1 =
          archivePrefix .posix (clean p) :: segments x := by rw [hname]; rfl
      rw [hplace] at hnode
      rw [hnode] at hfile
      cases hfile
      cases hkind
  · intro hapart
    refine ⟨?_, ?_⟩
    · rintro ⟨root, x, k⟩ he ⟨root', y, k'⟩ he' hk hk' hne
      rw [← not_or, name_iff hk hk']
      rintro ⟨hname, hxy⟩
      cases k with
      | dir info => cases hk
      | file info data =>
        obtain ⟨p, hp, rfl, node, hnode, hx⟩ := mem_archived.mp he
        obtain ⟨p', hp', rfl, node', hnode', hy⟩ := mem_archived.mp he'
        by_cases hsame : clean p = clean p'
        · rw [hsame] at hnode hx hne
          rw [hnode] at hnode'
          cases hnode'
          exact file_not_above (distinct_of_stat hnode) hx hy (fun heq => hne (by rw [heq])) hxy
        · obtain ⟨hentry, hkept⟩ := mem_rootEntries.mp hx
          obtain ⟨hentry', hkept'⟩ := mem_rootEntries.mp hy
          exact ((hapart p hp p' hp' hsame hname node node' hnode hnode' x info data hentry hkept y k' hentry'
            hkept').1 hk').1 hxy
    · rintro rfl its hits cwd dest d hdest hne hfresh
      rw [writeTar_eq hread] at hits
      cases hits
      have hcompat := archived_compatible hroots hapart
      have hsound : ∀ e ∈ (archived .posix clean m exclude paths).map (entryOf .posix), Sound e := by
        intro e he
        obtain ⟨e, -, rfl⟩ := List.mem_map.mp he
        exact sound_entryOf e
      rw [extractLoop_run hdest hne hsound (fun e he => hfresh.clear (hsound e he).2) hcompat]
      refine ⟨rfl, fun e he info data hkind => ?_⟩
      have hholds : Holds dest
          (((archived .posix clean m exclude paths).map (entryOf .posix)).foldl (unpack dest) d)
          (entryOf .posix e) := holds_foldl hcompat (List.mem_map_of_mem he)
      obtain ⟨root, x, k⟩ := e
      obtain rfl : k = .file info data := hkind
      exact hholds

end Claim

def posixClean (path : List Char) : List Char := (unixClean (.ofList path)).toList

def fileX : FileName := ⟨['x'], by decide, by decide, by decide, by decide⟩

def twoDirs (a b : List Char) : Mount where
  stat root :=
    if root = a then some (.dir ⟨0o755, 0⟩ (.file fileX ⟨0o644, 0⟩ [1] .nil))
    else if root = b then some (.dir ⟨0o755, 0⟩ (.file fileX ⟨0o644, 0⟩ [2] .nil))
    else none
  distinct root info sub h := by
    split at h
    · cases h
      exact ⟨List.not_mem_nil, trivial⟩
    split at h
    · cases h
      exact ⟨List.not_mem_nil, trivial⟩
    · cases h

def wwwPath : List Char := "/srv/www".toList

def mailPath : List Char := "/srv/mail".toList

theorem www_and_mail_apart :
    NeverCollide .posix posixClean (twoDirs wwwPath mailPath) [] [wwwPath, mailPath] := by
  refine (neverCollide_iff (by decide +kernel) (by decide +kernel)).mpr ?_
  intro p hp p' hp' hne hname
  have hnames : ∀ p ∈ [wwwPath, mailPath], ∀ p' ∈ [wwwPath, mailPath], posixClean p ≠ posixClean p' →
      archivePrefix .posix (posixClean p) ≠ archivePrefix .posix (posixClean p') := by decide +kernel
  exact absurd hname (hnames p hp p' hp' hne)

def dataA : List Char := "/a/data".toList

def dataB : List Char := "/b/data".toList

/-- Neither path is below the other, and both have the name `data` in the archive. -/
theorem data_collides :
    (∀ p ∈ [dataA, dataB], ∀ p' ∈ [dataA, dataB], p ≠ p' → ¬ p ++ ['/'] <+: p') ∧
      Readable posixClean (twoDirs dataA dataB) [dataA, dataB] ∧
      ¬ NeverCollide .posix posixClean (twoDirs dataA dataB) [] [dataA, dataB] := by
  refine ⟨by decide +kernel, by decide +kernel, fun h => ?_⟩
  let x : FileName := ⟨['x'], by decide, by decide, by decide, by decide⟩
  have hentries : archived .posix posixClean (twoDirs dataA dataB) [] [dataA, dataB] =
      [(dataA, [], .dir ⟨0o755, 0⟩), (dataA, [x], .file ⟨0o644, 0⟩ [1]), (dataB, [], .dir ⟨0o755, 0⟩),
        (dataB, [x], .file ⟨0o644, 0⟩ [2])] := by decide +kernel
  have hpair := h.apart (dataA, [x], .file ⟨0o644, 0⟩ [1]) (by rw [hentries]; simp)
    (dataB, [x], .file ⟨0o644, 0⟩ [2]) (by rw [hentries]; simp) rfl rfl (by decide +kernel)
  exact hpair.1 (by decide +kernel)

end ProxBack.Agent
