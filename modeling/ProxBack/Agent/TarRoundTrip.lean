import ProxBack.Agent.Collision

/-! Archiving and unpacking: what comes back, and what else is made. -/
namespace ProxBack.Agent
open Lib Text Prog Engine Tar

def destOf (dest : String) : List (List Char) := cleanSegments true (pathSegments dest) []

/-- The files and directories of the include paths, under their names in the archive. -/
def HasEntry (m : Mount) (paths : List (List Char)) (names : List (List Char)) (k : Kind) : Prop :=
  ∃ p ∈ paths, ∃ node, m.stat (posixClean p) = some node ∧
    ∃ x, (x, k) ∈ node.entries ∧ names = archivePrefix .posix (posixClean p) :: segments x

structure Free (m : Mount) (paths : List (List Char)) (dest : String) (d : Disk) : Prop where
  way : ∀ q ∈ Disk.route (pathSegments dest), ∀ data, d q ≠ some (.file data)
  entries : ∀ names k, HasEntry m paths names k → Clear (destOf dest) d (names, k)

/-- All that was archived is at the destination. Else nothing was made but the destination. -/
structure Restored (m : Mount) (paths : List (List Char)) (dest : String) (d d' : Disk) : Prop where
  whole : ∀ names k, HasEntry m paths names k → Holds (destOf dest) d' (names, k)
  nothingElse : ∀ q, d' q ≠ d q →
    q <+: destOf dest ∨ ∃ names k, HasEntry m paths names k ∧ q = destOf dest ++ names

def RoundTrip (fmt : Format) (cwd : String) (m : Mount) (paths : List (List Char)) (bytes : Bytes)
    (dest : String) (d : Disk) : Prop :=
  ∃ its, writeTar .posix posixClean m.stat [] paths = .ok its ∧
    (run (serve cwd) (extractTar fmt unixPaths ⟨bytes, none⟩ dest) d).1 = none ∧
    Restored m paths dest d (run (serve cwd) (extractTar fmt unixPaths ⟨bytes, none⟩ dest) d).2

def NoDetour (m : Mount) (paths : List (List Char)) (dest : String) (d : Disk) : Prop :=
  ∀ q ∈ Disk.route (pathSegments dest), q <+: destOf dest ∨ d q = some .dir ∨
    ∃ names info, HasEntry m paths names (.dir info) ∧ q = destOf dest ++ names

theorem destOf_proper (dest : String) : Proper (destOf dest) :=
  proper_cleanSegments (pathSegments_plain dest) proper_nil

section Entries

variable {m : Mount} {paths : List (List Char)} {names : List (List Char)} {k : Kind}

theorem kept_all (pf : Platform) (root : List Char) (x : Below) : Kept pf [] root x :=
  fun _ _ _ => List.any_nil

@[grind =] theorem hasEntry_iff : HasEntry m paths names k ↔
    (names, k) ∈ (archived .posix posixClean m [] paths).map (entryOf .posix) := by
  rw [List.mem_map]
  constructor
  · rintro ⟨p, hp, node, hnode, x, hx, rfl⟩
    have hmem : (x, k) ∈ rootEntries .posix [] (archivePrefix .posix (posixClean p)) node :=
      mem_rootEntries.mpr ⟨hx, kept_all _ _ _⟩
    exact ⟨_, mem_archived.mpr ⟨p, hp, rfl, node, hnode, hmem⟩, by rw [entryOf]⟩
  · rintro ⟨⟨root, x, k'⟩, he, heq⟩
    obtain ⟨p, hp, rfl, node, hnode, hx⟩ := mem_archived.mp he
    dsimp only [entryOf] at heq
    obtain ⟨rfl, rfl⟩ := Prod.mk.inj heq
    exact ⟨p, hp, node, hnode, x, (mem_rootEntries.mp hx).1, rfl⟩

theorem HasEntry.above {names' : List (List Char)} (h : HasEntry m paths names k) (hpre : names' <+: names)
    (hne : names' ≠ []) : ∃ k', HasEntry m paths names' k' := by
  obtain ⟨p, hp, node, hnode, x, hx, rfl⟩ := h
  obtain ⟨name, rest, rfl⟩ := List.exists_cons_of_ne_nil hne
  obtain ⟨rfl, hrest⟩ := List.cons_prefix_cons.mp hpre
  have hmem : (x, k) ∈ rootEntries .posix [] (archivePrefix .posix (posixClean p)) node :=
    mem_rootEntries.mpr ⟨hx, kept_all _ _ _⟩
  have htake : segments (x.take rest.length) = rest := by
    rw [segments, List.map_take]
    exact (List.prefix_iff_eq_take.mp hrest).symm
  obtain ⟨k', hdir, -⟩ := ancestor_of_rootEntries hmem (List.take_prefix rest.length x)
  exact ⟨k', p, hp, node, hnode, _, (mem_rootEntries.mp hdir).1, by rw [htake]⟩

theorem HasEntry.sound (h : HasEntry m paths names k) : Sound (names, k) := by
  obtain ⟨e, -, heq⟩ := List.mem_map.mp (hasEntry_iff.mp h)
  exact heq ▸ sound_entryOf e

theorem HasEntry.unique (hnames : (paths.map fun p => archivePrefix .posix (posixClean p)).Nodup) {k' : Kind}
    (h : HasEntry m paths names k) (h' : HasEntry m paths names k') : k = k' := by
  obtain ⟨p, hp, node, hnode, x, hx, rfl⟩ := h
  obtain ⟨p', hp', node', hnode', x', hx', heq⟩ := h'
  obtain ⟨hname, hsegs⟩ := List.cons.inj heq
  obtain rfl := List.inj_on_of_nodup_map hnames hp hp' hname
  rw [hnode] at hnode'
  cases hnode'
  have hxx : x = x' := by
    have hpre := segments_prefix.mp (hsegs ▸ List.prefix_rfl : segments x <+: segments x')
    exact hpre.eq_of_length (by simpa [segments] using congrArg List.length hsegs)
  subst hxx
  have hmem : ∀ k, (x, k) ∈ node.entries →
      (x, k) ∈ rootEntries .posix [] (archivePrefix .posix (posixClean p)) node := fun k hk =>
    mem_rootEntries.mpr ⟨hk, kept_all _ _ _⟩
  have hsame := List.inj_on_of_nodup_map (rootEntries_nodup (distinct_of_stat hnode)) (hmem k hx) (hmem k' hx') rfl
  exact (Prod.mk.inj hsame).2

theorem compatible_of_names (hnames : (paths.map fun p => archivePrefix .posix (posixClean p)).Nodup) :
    ((archived .posix posixClean m [] paths).map (entryOf .posix)).Pairwise Compatible := by
  refine archived_compatible ?_ ?_
  · rw [← Function.comp_def, ← List.map_map] at hnames
    exact hnames.of_map _
  · intro p hp p' hp' hne hname
    exact absurd (congrArg posixClean (List.inj_on_of_nodup_map hnames hp hp' hname)) hne

end Entries

section Unpacked

variable {fmt : Format} {dest : String} {d : Disk} {bytes : Bytes} {es : List Entry}

theorem mkdirAll_free (hway : ∀ q ∈ Disk.route (pathSegments dest), ∀ data, d q ≠ some (.file data)) :
    d.mkdirAll (pathSegments dest) = .ok (d.withRoute (pathSegments dest)) := by
  rw [Disk.mkdirAll, if_neg]
  rw [List.any_eq_true]
  rintro ⟨q, hq, hfile⟩
  cases hnode : d q with
  | none =>
    rw [hnode] at hfile
    cases hfile
  | some node =>
    rw [hnode] at hfile
    cases node with
    | dir => cases hfile
    | file data => exact hway q hq data hnode

theorem extractTar_run (cwd : String) (habs : unixPaths.isAbs dest = true)
    (hway : ∀ q ∈ Disk.route (pathSegments dest), ∀ data, d q ≠ some (.file data))
    (hreader : items fmt [] ⟨bytes, none⟩ = (es.map itemOf, .eof)) :
    run (serve cwd) (extractTar fmt unixPaths ⟨bytes, none⟩ dest) d =
      run (serve cwd) (extractLoop unixPaths (absText (destOf dest)) (es.map itemOf) .eof)
        (d.withRoute (pathSegments dest)) := by
  have hstep₁ : serve cwd (.mkdirAll dest 0o755) d = (.ok (), d.withRoute (pathSegments dest)) := by
    rw [serve, mkdirAll_free hway]
    rfl
  have hstep₂ : serve cwd (.abs dest) (d.withRoute (pathSegments dest)) =
      (.ok (absText (destOf dest)), d.withRoute (pathSegments dest)) := by
    rw [serve, if_pos habs, unixClean_rooted habs]
    rfl
  rw [extractTar, run_call, hstep₁]
  dsimp only
  rw [run_call, hstep₂]
  dsimp only
  rw [hreader]

theorem extractLoop_root {cwd : String} (hsound : ∀ e ∈ es, Sound e) (hne : es ≠ []) :
    (run (serve cwd) (extractLoop unixPaths (absText []) (es.map itemOf) .eof) d).1 ≠ none := by
  obtain ⟨e, es, rfl⟩ := List.exists_cons_of_ne_nil hne
  rw [List.map_cons, extractLoop, run_bind, extractEntry_root (hsound e List.mem_cons_self)]
  simp

end Unpacked

section Claim

variable {fmt : Format} {cwd dest : String} {d : Disk} {bytes : Bytes} {m : Mount} {paths : List (List Char)}

theorem archived_ne_nil (hread : Readable posixClean m paths) (hne : paths ≠ []) :
    (archived .posix posixClean m [] paths).map (entryOf .posix) ≠ [] := by
  obtain ⟨p, paths, rfl⟩ := List.exists_cons_of_ne_nil hne
  obtain ⟨node, hnode⟩ := Option.isSome_iff_exists.mp (hread p List.mem_cons_self).2
  have hroot : ∃ k, ([], k) ∈ node.entries := by
    cases node with
    | file info data => exact ⟨_, List.mem_singleton_self _⟩
    | dir info sub => exact ⟨_, List.mem_cons_self⟩
  obtain ⟨k, hk⟩ := hroot
  exact List.ne_nil_of_mem (hasEntry_iff.mp ⟨p, List.mem_cons_self, node, hnode, [], hk, rfl⟩)

theorem writeTar_all (hread : Readable posixClean m paths) : writeTar .posix posixClean m.stat [] paths =
    .ok (((archived .posix posixClean m [] paths).map (entryOf .posix)).map itemOf) :=
  writeTar_eq hread

theorem sound_all : ∀ e ∈ (archived .posix posixClean m [] paths).map (entryOf .posix), Sound e := by
  intro e he
  obtain ⟨e, -, rfl⟩ := List.mem_map.mp he
  exact sound_entryOf e

section Named

variable (hnames : (paths.map fun p => archivePrefix .posix (posixClean p)).Nodup)

include hnames

theorem Free.withRoute (h : Free m paths dest d) (hdetour : NoDetour m paths dest d)
    {names : List (List Char)} {k : Kind} (hentry : HasEntry m paths names k) :
    Clear (destOf dest) (d.withRoute (pathSegments dest)) (names, k) := by
  have hclear := h.entries names k hentry
  have hblocked : ∀ path, d.blocked path = false → (d.withRoute (pathSegments dest)).blocked path = false := by
    intro path hfree
    by_contra hfile
    obtain ⟨p, data, hp, hdata⟩ := Disk.blocked_iff.mp (by simpa using hfile)
    rw [Disk.withRoute] at hdata
    split at hdata
    · cases hdata
    · rw [Disk.blocked_iff.mpr ⟨p, data, hp, hdata⟩] at hfree
      cases hfree
  cases k with
  | dir info => exact hblocked _ hclear
  | file info data =>
    refine ⟨hblocked _ hclear.1, fun hdir => ?_⟩
    rw [Disk.withRoute] at hdir
    split at hdir
    rotate_left
    · exact hclear.2 hdir
    rename_i hroute
    rcases hdetour _ hroute with hpre | hthere | ⟨names', info', hentry', hplace⟩
    · obtain ⟨rest, hrest⟩ := hpre
      rw [List.append_assoc] at hrest
      exact hentry.sound.2 (List.append_eq_nil_iff.mp (List.append_right_eq_self.mp hrest)).1
    · exact hclear.2 hthere
    · -- a directory of the archive is not where a file of it is
      obtain rfl := List.append_cancel_left hplace
      cases HasEntry.unique hnames hentry hentry'

/-- Unpacking an archive whose destination is not the root leaves what was archived, and nothing
else. -/
theorem restored_of_unpacked (hdetour : NoDetour m paths dest d)
    {es : List Entry} (hes : es = (archived .posix posixClean m [] paths).map (entryOf .posix)) :
    Restored m paths dest d (es.foldl (unpack (destOf dest)) (d.withRoute (pathSegments dest))) := by
  have hcompat := compatible_of_names (m := m) hnames
  rw [← hes] at hcompat
  refine ⟨fun names k hentry => holds_foldl hcompat (hes ▸ hasEntry_iff.mp hentry), fun q hq => ?_⟩
  by_cases hway : ∃ e ∈ es, q <+: destOf dest ++ e.1
  · obtain ⟨⟨names, k⟩, he, hpre⟩ := hway
    rcases List.prefix_or_prefix_of_prefix hpre (List.prefix_append _ names) with habove | ⟨names', rfl⟩
    · exact .inl habove
    by_cases hnil : names' = []
    · left
      rw [hnil, List.append_nil]
    · obtain ⟨k', hentry⟩ := (hasEntry_iff.mpr (hes ▸ he)).above
        ((List.prefix_append_right_inj _).mp hpre) hnil
      exact .inr ⟨names', k', hentry, rfl⟩
  · rw [foldl_unpack_other fun e he hpre => hway ⟨e, he, hpre⟩, Disk.withRoute] at hq
    split at hq
    rotate_left
    · exact absurd rfl hq
    rename_i hroute
    rcases hdetour q hroute with hpre | hthere | ⟨names, info, hentry, rfl⟩
    · exact .inl hpre
    · exact absurd hthere.symm hq
    · exact .inr ⟨names, _, hentry, rfl⟩

/-- Archiving and unpacking gives back what was archived, exactly where no include path is blank, the
destination is not the root of the file system, and its dots lead through nothing that would have
to be made. -/
theorem roundTrip_iff (habs : unixPaths.isAbs dest = true) (hstat : ∀ p ∈ paths, (m.stat (posixClean p)).isSome)
    (hreader : ∀ its, writeTar .posix posixClean m.stat [] paths = .ok its →
      items fmt [] ⟨bytes, none⟩ = (its, .eof))
    (hfree : Free m paths dest d) :
    RoundTrip fmt cwd m paths bytes dest d ↔
      (∀ p ∈ paths, trimSpace p ≠ []) ∧ (destOf dest = [] → paths = []) ∧ NoDetour m paths dest d := by
  constructor
  · rintro ⟨its, hits, hok, hrest⟩
    have hread := readable_of_writeTar hits
    have heq := writeTar_all hread
    have hrun := extractTar_run cwd habs hfree.way (hreader _ heq)
    rw [hrun] at hok hrest
    have hroot : destOf dest = [] → paths = [] := by
      intro hnil
      by_contra hne
      rw [hnil] at hok
      exact extractLoop_root sound_all (archived_ne_nil hread hne) hok
    refine ⟨fun p hp => (hread p hp).1, hroot, fun q hq => ?_⟩
    by_contra hmade
    rw [not_or, not_or] at hmade
    obtain ⟨hbelow, hnew, hnone⟩ := hmade
    -- the directory is still there in the end
    have hdir : (run (serve cwd) (extractLoop unixPaths (absText (destOf dest))
        (((archived .posix posixClean m [] paths).map (entryOf .posix)).map itemOf) .eof)
          (d.withRoute (pathSegments dest))).2 q = some .dir := by
      have hthere : d.withRoute (pathSegments dest) q = some .dir := if_pos hq
      by_cases hpaths : paths = []
      · rw [hpaths]
        exact hthere
      · obtain ⟨hsame, -⟩ := extractLoop_ok (destOf_proper dest) (mt hroot hpaths) sound_all hok
        obtain ⟨node, hnode, hkind⟩ := hsame q .dir hthere
        cases node with
        | dir => exact hnode
        | file data => cases hkind
    rcases hrest.nothingElse q (by rw [hdir]; exact Ne.symm hnew) with hpre | ⟨names, k, hentry, rfl⟩
    · exact hbelow hpre
    · cases k with
      | dir info => exact hnone ⟨names, info, hentry, rfl⟩
      | file info data =>
        have hfile := hrest.whole _ _ hentry
        rw [Holds, hdir] at hfile
        cases hfile
  · rintro ⟨hblank, hroot, hdetour⟩
    have hread : Readable posixClean m paths := fun p hp => ⟨hblank p hp, hstat p hp⟩
    have heq := writeTar_all hread
    have hrun := extractTar_run cwd habs hfree.way (hreader _ heq)
    have hloop : run (serve cwd) (extractLoop unixPaths (absText (destOf dest))
        (((archived .posix posixClean m [] paths).map (entryOf .posix)).map itemOf) .eof)
          (d.withRoute (pathSegments dest)) =
        (none, ((archived .posix posixClean m [] paths).map (entryOf .posix)).foldl (unpack (destOf dest))
          (d.withRoute (pathSegments dest))) := by
      by_cases hnil : destOf dest = []
      · rw [hroot hnil]
        rfl
      · refine extractLoop_run (destOf_proper dest) hnil sound_all ?_ (compatible_of_names hnames)
        exact fun e he => hfree.withRoute hnames hdetour (hasEntry_iff.mpr he)
    refine ⟨_, heq, ?_, ?_⟩
    · rw [hrun, hloop]
    · rw [hrun, hloop]
      exact restored_of_unpacked hnames hdetour rfl

end Named

end Claim

def wwwMount : Mount where
  stat root :=
    if root = wwwPath then some (.dir ⟨0o755, 62135596800 * 10 ^ 9⟩
      (.file fileX ⟨0o644, 62135596800 * 10 ^ 9⟩ [104, 105] .nil))
    else none
  distinct root info sub h := by
    split at h
    · cases h
      exact ⟨List.not_mem_nil, trivial⟩
    · cases h

def withSize (size : String) (block : Bytes) : Bytes := block.take 124 ++ padded size 12 ++ block.drop 136

def wwwTar : Bytes :=
  headerBlock "www/" "0000755" "006571" 53 "" ++
    (withSize "00000000002" (headerBlock "www/x" "0000644" "006753" 48 "") ++ ([104, 105] ++ List.replicate 510 0) ++
      List.replicate 1024 0)

def wwwItems : List Item :=
  [⟨⟨"www/", .dir, 0o755, 0, 62135596800 * 10 ^ 9⟩, [], none⟩,
    ⟨⟨"www/x", .reg, 0o644, 2, 62135596800 * 10 ^ 9⟩, [104, 105], none⟩]

theorem items_more {fmt : Format} {bytes : Bytes} {its : List Item}
    (h : items fmt [] ⟨bytes, some .unexpectedEOF⟩ = (its, .eof)) (more : Bytes) :
    items fmt [] ⟨bytes ++ more, none⟩ = (its, .eof) := by
  have hwhole := items_whole fmt [] (b := ⟨bytes, some .unexpectedEOF⟩) rfl rfl (by rw [h]; rfl) more
  rw [h] at hwhole
  exact hwhole

theorem www_blocks :
    next ustar [] ⟨wwwTar, some .unexpectedEOF⟩ =
      .entry ⟨⟨"www/", .dir, 0o755, 0, 62135596800 * 10 ^ 9⟩, [], none⟩
        ⟨wwwTar.drop 512, some .unexpectedEOF⟩ ∧
    next ustar [] ⟨wwwTar.drop 512, some .unexpectedEOF⟩ =
      .entry ⟨⟨"www/x", .reg, 0o644, 2, 62135596800 * 10 ^ 9⟩, [104, 105], none⟩
        ⟨List.replicate 1024 0, some .unexpectedEOF⟩ ∧
    next ustar [] ⟨List.replicate 1024 0, some .unexpectedEOF⟩ = .ended .eof ∧
    writeTar .posix posixClean wwwMount.stat [] [wwwPath] = .ok wwwItems ∧
    ∀ q ∈ Disk.route (pathSegments "/restore"), q <+: destOf "/restore" := by decide +kernel

theorem items_wwwTar_broken : items ustar [] ⟨wwwTar, some .unexpectedEOF⟩ = (wwwItems, .eof) := by
  obtain ⟨hdir, hfile, hend, -⟩ := www_blocks
  rw [items_entry hdir, items_entry hfile, items_ended hend]
  rfl

theorem items_wwwTar : items ustar [] ⟨wwwTar, none⟩ = (wwwItems, .eof) := by
  have hitems := items_more items_wwwTar_broken []
  rwa [List.append_nil] at hitems

def bareDisk : Disk := fun p => if p = [] then some .dir else none

theorem www_free {dest : String} : Free wwwMount [wwwPath] dest bareDisk := by
  have hnone : ∀ q data, bareDisk q ≠ some (.file data) := by
    intro q data hq
    unfold bareDisk at hq
    split at hq <;> cases hq
  have hblocked : ∀ path, bareDisk.blocked path = false := by
    intro path
    by_contra hfile
    obtain ⟨p, data, -, hdata⟩ := Disk.blocked_iff.mp (by simpa using hfile)
    exact hnone p data hdata
  refine ⟨fun q _ => hnone q, fun names k hentry => ?_⟩
  cases k with
  | dir info => exact hblocked _
  | file info data =>
    refine ⟨hblocked _, ?_⟩
    rw [bareDisk, if_neg fun hnil => hentry.sound.2 (List.append_eq_nil_iff.mp hnil).2]
    nofun

theorem writeTar_www : writeTar .posix posixClean wwwMount.stat [] [wwwPath] = .ok wwwItems :=
  www_blocks.2.2.2.1

theorem www_no_detour : NoDetour wwwMount [wwwPath] "/restore" bareDisk := by
  intro q hq
  left
  exact www_blocks.2.2.2.2 q hq

theorem www_round_trip : RoundTrip ustar "/" wwwMount [wwwPath] wwwTar "/restore" bareDisk := by
  refine (roundTrip_iff (by decide +kernel) (by decide +kernel) (by decide +kernel) ?_ www_free).mpr ?_
  · intro its hits
    rw [writeTar_www] at hits
    cases hits
    exact items_wwwTar
  · exact ⟨by decide +kernel, by decide +kernel, www_no_detour⟩

/-- Into the root of the file system the archive is not unpacked. -/
theorem root_refused :
    unixPaths.isAbs "/" = true ∧ (∀ p ∈ [wwwPath], (wwwMount.stat (posixClean p)).isSome) ∧
      Free wwwMount [wwwPath] "/" bareDisk ∧ items ustar [] ⟨wwwTar, none⟩ = (wwwItems, .eof) ∧
      writeTar .posix posixClean wwwMount.stat [] [wwwPath] = .ok wwwItems ∧
      ¬ RoundTrip ustar "/" wwwMount [wwwPath] wwwTar "/" bareDisk := by
  refine ⟨by decide +kernel, by decide +kernel, www_free, items_wwwTar, writeTar_www, ?_⟩
  rintro ⟨its, hits, hok, -⟩
  have hread : Readable posixClean wwwMount [wwwPath] := readable_of_writeTar hits
  have heq := writeTar_all hread
  have hreader : items ustar [] ⟨wwwTar, none⟩ =
      (((archived .posix posixClean wwwMount [] [wwwPath]).map (entryOf .posix)).map itemOf, .eof) := by
    rw [items_wwwTar, ← Except.ok.inj (writeTar_www.symm.trans heq)]
  have hroot : destOf "/" = [] := by decide +kernel
  rw [extractTar_run "/" (by decide +kernel) www_free.way hreader, hroot] at hok
  exact extractLoop_root sound_all (archived_ne_nil hread (List.cons_ne_nil _ _)) hok

end ProxBack.Agent
