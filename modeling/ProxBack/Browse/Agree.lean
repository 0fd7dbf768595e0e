import ProxBack.Agent.TarRoundTrip
import ProxBack.Browse.Index
import ProxBack.Engine.RoundTrip

/-! Browsing a restore point of an agent, and restoring all of it. -/
namespace ProxBack.Browse
open Lib Prog Engine Agent Agent.Tar

/-- `ReadChunk` on a target that nothing disturbs. -/
def fetchFrom (e : Engine) (t : Target) (ch : Engine.Chunk) : Except Engine.Err Bytes :=
  (run restoreAlone (liftRestore (e.readChunk ch)) (t, [])).1

/-- A stream of a restore point, with the archive an agent wrote into it. A reader of the stream stops
at the archive's end. -/
structure Stored (e : Engine) (t : Target) (fmt : Format) where
  name : String
  units : List Bytes
  pf : Platform
  clean : List Char → List Char
  mount : Mount
  exclude : List (List Char)
  paths : List (List Char)
  nonempty : ∀ d ∈ units, d ≠ []
  restorable : ∀ d ∈ units, Restorable e t d
  readable : Readable clean mount paths
  sound : ∀ x ∈ archived pf clean mount exclude paths, Sound (Agent.entryOf pf x)
  written : ∀ its, writeTar pf clean mount.stat exclude paths = .ok its →
    ∀ more, items fmt [] ⟨units.flatten ++ more, none⟩ = (its, .eof)

section Model

variable {e : Engine} {t : Target} {fmt : Format}

namespace Stored

def disk (s : Stored e t fmt) : Engine.DiskManifest := ⟨s.name, s.units.flatten.length, s.units.map (chunkOf e)⟩

def entries (s : Stored e t fmt) : List Agent.Entry :=
  (archived s.pf s.clean s.mount s.exclude s.paths).map (Agent.entryOf s.pf)

end Stored

def fullRestore (e : Engine) (t : Target) (fmt : Format) (disks : List Engine.DiskManifest) (cwd dest : String)
    (d : Disk) : Option UnpackErr × Disk :=
  run (serve cwd) (extractTar fmt unixPaths
    ⟨(run restoreAlone (restoreStream e disks .zero) (t, [])).2.2, none⟩ dest) d

def Reads (fetch : Engine.Chunk → Except Engine.Err Bytes) (data : Bytes) : Option Section → Prop
  | none => data = []
  | some s => ∀ lens : List Nat, (∀ len ∈ lens, 0 < len) → ∃ err, s.read fetch lens 0 ⟨[], []⟩ = (data.take lens.sum, err) ∧
      (err = none ∨ err = some .eof ∧ data.length ≤ lens.sum)

def Opens (fetch : Engine.Chunk → Except Engine.Err Bytes) (fmt : Format) (disks : List Engine.DiskManifest) (path : String)
    (data : Bytes) : Prop :=
  ∃ x sec, browseOpenFile fetch fmt disks path = .ok (x, sec) ∧ Reads fetch data sec

/-- The index lists the files a full restore leaves, and opens them. It lists no others. -/
structure Agrees (fetch : Engine.Chunk → Except Engine.Err Bytes) (fmt : Format) (disks : List Engine.DiskManifest)
    (dest : List (List Char)) (d : Disk) : Prop where
  listed : ∀ names data, d (dest ++ names) = some (.file data) →
    (∃ idx, browseIndex fetch fmt disks = .ok idx ∧
      ∃ x ∈ idx.1, x.dir = false ∧ x.path = normalizePath (relText names)) ∧
      Opens fetch fmt disks (normalizePath (relText names)) data
  written : ∀ idx, browseIndex fetch fmt disks = .ok idx → ∀ x ∈ idx.1, x.dir = false →
    ∃ names data, d (dest ++ names) = some (.file data) ∧ x.path = normalizePath (relText names)

def shownAs (x : Agent.Entry) : String := normalizePath (itemOf x).header.name

def lastNamed (streams : List (Stored e t fmt)) (name : String) : Option (Stored e t fmt) :=
  streams.reverse.find? fun s => s.name = name

def visited (streams : List (Stored e t fmt)) : List Agent.Entry :=
  streams.flatMap fun s => ((lastNamed streams s.name).map Stored.entries).getD []

def listing (streams : List (Stored e t fmt)) : List Agent.Entry := (visited streams).filter fun x => shownAs x ≠ ""

def unpackedOf : List (Stored e t fmt) → List Agent.Entry
  | [] => []
  | s :: _ => s.entries

/-- Every file of the first stream is shown, and the first entry shown where it is looked up is a file
with what the last file of its name has. Files of other streams are shown where one of the first is. -/
structure Shown (streams : List (Stored e t fmt)) : Prop where
  files : ∀ names data, lastFile names (unpackedOf streams) = some data →
    (∃ x ∈ listing streams, x.2.isFile = true ∧ shownAs x = normalizePath (relText names)) ∧
      ∃ n info, (listing streams).find? (fun x => shownAs x = normalizePath (normalizePath (relText names))) =
        some (n, .file info data)
  others : ∀ x ∈ listing streams, x.2.isFile = true →
    ∃ names data, lastFile names (unpackedOf streams) = some data ∧ shownAs x = normalizePath (relText names)

section Restore

variable {streams : List (Stored e t fmt)}

namespace Stored

theorem fetched (s : Stored e t fmt) : Browse.Served (fetchFrom e t) e s.units := by
  refine ⟨s.nonempty, fun d hd => ?_⟩
  obtain ⟨o, ho, hdec⟩ := s.restorable d hd
  rw [fetchFrom, Engine.run_readChunk]
  simp [chunkOf, ho, hdec]

theorem items_entries (s : Stored e t fmt) (more : Bytes) :
    items fmt [] ⟨s.units.flatten ++ more, none⟩ = (s.entries.map itemOf, .eof) :=
  s.written _ (writeTar_eq s.readable) more

theorem sound_entries (s : Stored e t fmt) : ∀ x ∈ s.entries, Sound x := by
  intro x hx
  obtain ⟨y, hy, rfl⟩ := List.mem_map.mp hx
  exact s.sound y hy

end Stored

theorem run_restoreDisk (s : Stored e t fmt) (out : Bytes) (st : Stats) :
    ∃ st', run restoreAlone (e.restoreDisk s.disk st) (t, out) = ((.ok (), st'), (t, out ++ s.units.flatten)) := by
  obtain ⟨st', hloop⟩ := run_restoreChunks_ok e s.name s.restorable out 0 st
  have hrun : run restoreAlone (e.restoreChunks s.disk.name s.disk.chunks 0 st) (t, out) =
      ((.ok (0 + s.units.flatten.length), st'), (t, out ++ s.units.flatten)) := hloop
  refine ⟨st', ?_⟩
  rw [Engine.restoreDisk, run_bind, hrun]
  simp [Stored.disk]

theorem run_restoreStream (out : Bytes) (st : Stats) :
    ∃ st', run restoreAlone (restoreStream e (streams.map Stored.disk) st) (t, out) =
      ((none, st'), (t, out ++ streams.flatMap fun s => s.units.flatten)) := by
  induction streams generalizing out st with
  | nil => exact ⟨st, by rw [List.flatMap_nil, List.append_nil]; rfl⟩
  | cons s streams ih =>
    obtain ⟨st₁, hdisk⟩ := run_restoreDisk s out st
    obtain ⟨st', hrest⟩ := ih (out ++ s.units.flatten) st₁
    refine ⟨st', ?_⟩
    rw [List.map_cons, restoreStream, run_bind, hdisk]
    dsimp only
    rw [hrest, List.flatMap_cons, List.append_assoc]

theorem items_streams :
    items fmt [] ⟨streams.flatMap fun s => s.units.flatten, none⟩ = ((unpackedOf streams).map itemOf, .eof) := by
  cases streams with
  | nil =>
    have hnext : next fmt [] ⟨[], none⟩ = .ended .eof := rfl
    rw [List.flatMap_nil, items_ended hnext]
    rfl
  | cons s streams =>
    rw [List.flatMap_cons]
    exact s.items_entries _

theorem sound_unpacked : ∀ x ∈ unpackedOf streams, Sound x := by
  cases streams with
  | nil => exact nofun
  | cons s streams => exact s.sound_entries

variable {cwd dest : String} {d : Disk}

theorem fullRestore_eq : fullRestore e t fmt (streams.map Stored.disk) cwd dest d =
    run (serve cwd) (extractTar fmt unixPaths ⟨streams.flatMap fun s => s.units.flatten, none⟩ dest) d := by
  have hstream : ∃ st', run restoreAlone (restoreStream e (streams.map Stored.disk) .zero) (t, []) =
      ((none, st'), (t, [] ++ streams.flatMap fun s => s.units.flatten)) := run_restoreStream [] .zero
  obtain ⟨st', hrun⟩ := hstream
  rw [fullRestore, hrun, List.nil_append]

theorem way_of_ok {body : Agent.Tar.Body} (hok : (run (serve cwd) (extractTar fmt unixPaths body dest) d).1 = none) :
    ∀ q ∈ Disk.route (pathSegments dest), ∀ data, d q ≠ some (.file data) := by
  intro q hq data hfile
  have hblocked : ((Disk.route (pathSegments dest)).any fun p => (d p).any DiskNode.isFile) = true :=
    List.any_eq_true.mpr ⟨q, hq, by rw [hfile]; rfl⟩
  have hstep : serve cwd (.mkdirAll dest 0o755) d = (.error Disk.notDir, d) := by
    rw [serve, Disk.mkdirAll, if_pos hblocked]
    rfl
  rw [extractTar, run_call, hstep] at hok
  cases hok

theorem fullRestore_ok (habs : unixPaths.isAbs dest = true) (hroot : destOf dest ≠ [])
    (hway : ∀ q ∈ Disk.route (pathSegments dest), ∀ data, d q ≠ some (.file data))
    (hclear : ClearAll (destOf dest) (d.withRoute (pathSegments dest)) (unpackedOf streams)) :
    (fullRestore e t fmt (streams.map Stored.disk) cwd dest d).1 = none := by
  rw [fullRestore_eq, extractTar_run cwd habs hway items_streams,
    extractLoop_clear (destOf_proper dest) hroot sound_unpacked hclear]

theorem fullRestore_content (habs : unixPaths.isAbs dest = true) (hroot : destOf dest ≠ [])
    (hfresh : Fresh (destOf dest) d)
    (hok : (fullRestore e t fmt (streams.map Stored.disk) cwd dest d).1 = none) (names : List (List Char)) :
    content (fullRestore e t fmt (streams.map Stored.disk) cwd dest d).2 (destOf dest ++ names) =
      lastFile names (unpackedOf streams) := by
  rw [fullRestore_eq] at hok ⊢
  have hway := way_of_ok hok
  rw [extractTar_run cwd habs hway items_streams] at hok ⊢
  rw [extractLoop_content (destOf_proper dest) hroot sound_unpacked hok]
  have hnone : content (d.withRoute (pathSegments dest)) (destOf dest ++ names) = none := by
    rw [content, Disk.withRoute]
    split
    · rename_i data hfile
      split at hfile
      · cases hfile
      · by_cases hnames : names = []
        · rw [hnames, List.append_nil] at hfile
          have hblocked := Disk.blocked_iff.mpr ⟨_, data, List.prefix_rfl, hfile⟩
          rw [hfresh.1] at hblocked
          cases hblocked
        · rw [hfresh.2 _ (List.prefix_append _ _) fun heq => hnames (List.append_right_eq_self.mp heq)] at hfile
          cases hfile
    · rfl
  rw [hnone, Option.or_none]

end Restore

section Index

variable {streams : List (Stored e t fmt)}

theorem indexLoop_eq (name : String) (ms : List (Item × Nat)) (acc : List Entry)
    (h : (acc ++ ms.filterMap (entryOf name)).length < maxIndexEntries) :
    indexLoop name ms .eof acc = .ok (acc ++ ms.filterMap (entryOf name), false) := by
  induction ms generalizing acc with
  | nil =>
    rw [List.filterMap_nil, List.append_nil, indexLoop]
    exact if_pos rfl
  | cons m ms ih =>
    rw [indexLoop]
    cases hm : entryOf name m with
    | none =>
      rw [List.filterMap_cons_none hm] at h ⊢
      exact ih acc h
    | some x =>
      rw [List.filterMap_cons_some hm, List.append_cons] at h ⊢
      dsimp only
      rw [if_neg, ih _ h]
      rw [List.length_append] at h
      omega

namespace Stored

def members (s : Stored e t fmt) : List (Item × Nat) :=
  (Browse.members fmt s.units.flatten.length [] ⟨s.units.flatten, none⟩).1

theorem members_fst (s : Stored e t fmt) : s.members.map Prod.fst = s.entries.map itemOf ∧
    (Browse.members fmt s.units.flatten.length [] ⟨s.units.flatten, none⟩).2 = .eof := by
  have hitems := s.items_entries []
  rw [List.append_nil, ← members_items s.units.flatten.length] at hitems
  exact Prod.mk.inj hitems

end Stored

def indexed (streams : List (Stored e t fmt)) : List (String × Stored e t fmt × (Item × Nat)) :=
  streams.flatMap fun s =>
    match lastNamed streams s.name with
    | none => []
    | some s' => s'.members.map fun m => (s.name, s', m)

theorem lastNamed_isSome {s : Stored e t fmt} (hs : s ∈ streams) :
    ∃ s', lastNamed streams s.name = some s' ∧ s' ∈ streams := by
  cases hfind : lastNamed streams s.name with
  | none =>
    have hall := List.find?_eq_none.mp hfind s (List.mem_reverse.mpr hs)
    simp at hall
  | some s' => exact ⟨s', rfl, List.mem_reverse.mp (List.mem_of_find?_eq_some hfind)⟩

theorem streamNamed_eq (name : String) :
    streamNamed (streams.map Stored.disk) name = (lastNamed streams name).map fun s => streamOf e s.units := by
  rw [streamNamed, lastNamed, ← List.map_reverse, List.find?_map, Option.map_map]
  rfl

theorem indexTar_eq (name : String) (s : Stored e t fmt) (hcap : s.entries.length < maxIndexEntries) :
    indexTar fmt s.units.flatten name = .ok (s.members.filterMap (entryOf name), false) := by
  obtain ⟨hfst, hend⟩ := s.members_fst
  have hlen : s.members.length = s.entries.length := by
    have hmap : (s.members.map Prod.fst).length = s.members.length := List.length_map _
    rw [← hmap, hfst, List.length_map]
  rw [indexTar, hend]
  show indexLoop name s.members .eof [] = _
  rw [indexLoop_eq name s.members [], List.nil_append]
  have hle := List.length_filterMap_le (entryOf name) s.members
  rw [List.nil_append]
  omega

theorem indexStreams_eq (hcap : ∀ s ∈ streams, s.entries.length < maxIndexEntries) {rest : List (Stored e t fmt)}
    (hrest : ∀ s ∈ rest, s ∈ streams) (acc : List Entry) :
    indexStreams (fetchFrom e t) fmt (streams.map Stored.disk) (rest.map Stored.disk) (acc, false) =
      .ok (acc ++ (rest.flatMap fun s => match lastNamed streams s.name with
        | none => []
        | some s' => s'.members.map fun m => (s.name, s', m)).filterMap fun x => entryOf x.1 x.2.2, false) := by
  induction rest generalizing acc with
  | nil =>
    rw [List.flatMap_nil, List.filterMap_nil, List.append_nil]
    rfl
  | cons s rest ih =>
    obtain ⟨s', hs', hmem⟩ := lastNamed_isSome (hrest s List.mem_cons_self)
    have hstream : streamNamed (streams.map Stored.disk) s.disk.name = some (streamOf e s'.units) := by
      rw [streamNamed_eq]
      show (lastNamed streams s.name).map _ = _
      rw [hs']
      rfl
    rw [List.map_cons, indexStreams, hstream]
    dsimp only
    rw [contents_eq s'.fetched, indexTar_eq _ s' (hcap s' hmem)]
    dsimp only
    rw [Bool.or_false, ih (fun s hs => hrest s (List.mem_cons_of_mem _ hs)), List.flatMap_cons, hs']
    dsimp only
    rw [List.filterMap_append, List.filterMap_map, List.append_assoc]
    rfl

theorem browseIndex_eq (hcap : ∀ s ∈ streams, s.entries.length < maxIndexEntries) :
    browseIndex (fetchFrom e t) fmt (streams.map Stored.disk) =
      .ok ((indexed streams).filterMap fun x => entryOf x.1 x.2.2, false) :=
  indexStreams_eq hcap (fun _ hs => hs) []

theorem of_mem_indexed {x : String × Stored e t fmt × (Item × Nat)} (hx : x ∈ indexed streams) :
    lastNamed streams x.1 = some x.2.1 ∧ x.2.2 ∈ x.2.1.members := by
  obtain ⟨s, hs, hx⟩ := List.mem_flatMap.mp hx
  split at hx
  · cases hx
  · rename_i s' hs'
    obtain ⟨m, hm, rfl⟩ := List.mem_map.mp hx
    exact ⟨hs', hm⟩

theorem indexed_items : (indexed streams).map (fun x => x.2.2.1) = (visited streams).map itemOf := by
  rw [indexed, visited, List.map_flatMap, List.map_flatMap]
  refine List.flatMap_congr fun s hs => ?_
  obtain ⟨s', hs', -⟩ := lastNamed_isSome hs
  rw [hs']
  dsimp only [Option.map_some, Option.getD_some]
  rw [List.map_map, ← s'.members_fst.1]
  rfl

theorem entryOf_itemOf {y : Agent.Entry} (hy : Sound y) (name : String) (off : Nat) :
    entryOf name (itemOf y, off) = if shownAs y = "" then none
      else some ⟨shownAs y, (itemOf y).header.size, (itemOf y).header.mode, (itemOf y).header.modTime,
        !y.2.isFile, name, if y.2.isFile = true ∧ 0 < (itemOf y).header.size then off else 0⟩ := by
  have hdir : (decide ((itemOf y).header.typeflag = .dir ∨
      (itemOf y).header.name.toList.getLast? = some '/')) = !y.2.isFile := by
    obtain ⟨names, ⟨info, data⟩ | ⟨info⟩⟩ := y
    · have hlast : ¬ (joined names).getLast? = some '/' := fun hl => joined_last hy.1.named '/' hl rfl
      simp [itemOf, addFile, header, Kind.isFile, hlast]
    · rfl
  rw [entryOf]
  dsimp only
  rw [hdir, shownAs]
  simp only [Bool.not_eq_eq_eq_not, Bool.not_false]

theorem sound_visited {y : Agent.Entry} (hy : y ∈ visited streams) : Sound y := by
  obtain ⟨s, hs, hy⟩ := List.mem_flatMap.mp hy
  obtain ⟨s', hs', -⟩ := lastNamed_isSome hs
  rw [hs'] at hy
  exact s'.sound_entries y hy

theorem mem_index_iff {want : String} :
    (∃ x ∈ (indexed streams).filterMap (fun x => entryOf x.1 x.2.2), x.dir = false ∧ x.path = want) ↔
      ∃ y ∈ listing streams, y.2.isFile = true ∧ shownAs y = want := by
  constructor
  · rintro ⟨x, hx, hdir, rfl⟩
    obtain ⟨z, hz, hentry⟩ := List.mem_filterMap.mp hx
    have hitem := List.mem_map_of_mem (f := fun x => x.2.2.1) hz
    rw [indexed_items] at hitem
    obtain ⟨y, hy, heq⟩ := List.mem_map.mp hitem
    obtain ⟨name, s, it, off⟩ := z
    obtain rfl : itemOf y = it := heq
    dsimp only at hentry
    rw [entryOf_itemOf (sound_visited hy)] at hentry
    split at hentry
    · cases hentry
    · rename_i hshown
      cases hentry
      exact ⟨y, List.mem_filter.mpr ⟨hy, by simpa using hshown⟩, by simpa using hdir, rfl⟩
  · rintro ⟨y, hy, hfile, rfl⟩
    obtain ⟨hy, hshown⟩ := List.mem_filter.mp hy
    have hitem := List.mem_map_of_mem (f := itemOf) hy
    rw [← indexed_items] at hitem
    obtain ⟨⟨name, s, it, off⟩, hz, heq⟩ := List.mem_map.mp hitem
    obtain rfl : it = itemOf y := heq
    have hentry := entryOf_itemOf (sound_visited hy) name off
    rw [if_neg (by simpa using hshown)] at hentry
    exact ⟨_, List.mem_filterMap.mpr ⟨_, hz, hentry⟩, by rw [hfile]; rfl, rfl⟩

theorem entryOf_any (name want : String) (m : Item × Nat) :
    ((entryOf name m).any fun e => e.path = want) =
      decide (normalizePath m.1.header.name ≠ "" ∧ normalizePath m.1.header.name = want) := by
  rw [entryOf]
  split
  · rename_i hnone
    simp [hnone]
  · rename_i hsome
    simp [hsome]

theorem listing_find (want : String) :
    ((listing streams).find? fun y => shownAs y = want).map itemOf =
      ((indexed streams).find? fun x => (entryOf x.1 x.2.2).any fun e => e.path = want).map fun x => x.2.2.1 := by
  let shown : Item → Bool := fun it => normalizePath it.header.name ≠ "" ∧ normalizePath it.header.name = want
  have hlisting : (listing streams).find? (fun y => shownAs y = want) =
      (visited streams).find? (shown ∘ itemOf) := by
    rw [listing, List.find?_filter]
    congr 1
    funext y
    rw [Bool.eq_iff_iff, decide_eq_true_iff]
    exact (and_congr decide_eq_true_iff decide_eq_true_iff).trans decide_eq_true_iff.symm
  have hindexed : (fun x : String × Stored e t fmt × (Item × Nat) => (entryOf x.1 x.2.2).any fun e => e.path = want) =
      shown ∘ fun x => x.2.2.1 := funext fun x => entryOf_any _ _ _
  rw [hlisting, hindexed, ← List.find?_map, ← List.find?_map, indexed_items]

theorem reads_iff {s : Stored e t fmt} {m : Item × Nat} (hm : m ∈ s.members) (herr : m.1.err = none) {data : Bytes} :
    Reads (fetchFrom e t) data (if m.1.header.size = 0 then none
      else some ⟨streamOf e s.units, m.2, m.1.header.size⟩) ↔ data = m.1.data := by
  obtain ⟨it, off⟩ := m
  have hwhole : ∃ k, (⟨s.units.flatten, none⟩ : Agent.Tar.Body).left = s.units.flatten.drop k := ⟨0, rfl⟩
  obtain ⟨hle, hextent⟩ := members_extent hwhole hm herr
  have hlen : it.data.length = it.header.size := by
    rw [← hextent, List.length_take, List.length_drop]
    omega
  by_cases hsize : it.header.size = 0
  · rw [if_pos hsize, List.eq_nil_of_length_eq_zero (hlen.trans hsize)]
    rfl
  · rw [if_neg hsize]
    have hread : ∀ lens : List Nat, (∀ len ∈ lens, 0 < len) → ∃ err,
        Section.read (fetchFrom e t) ⟨streamOf e s.units, off, it.header.size⟩ lens 0 ⟨[], []⟩ =
          (it.data.take lens.sum, err) ∧ (err = none ∨ err = some .eof ∧ it.data.length ≤ lens.sum) := by
      intro lens hlens
      obtain ⟨err, hread, herr⟩ := section_spec s.fetched hle lens hlens (Nat.zero_le _) sound_empty
      refine ⟨err, ?_, herr.imp_right fun h => ⟨h.1, by omega⟩⟩
      rw [hread, List.drop_zero, hextent]
    constructor
    · intro h
      have hpos : ∀ len ∈ [data.length + it.data.length + 1], 0 < len := by simp
      obtain ⟨err, hdata, -⟩ := h _ hpos
      obtain ⟨err', hdata', -⟩ := hread _ hpos
      have hsame := (Prod.mk.inj (hdata.symm.trans hdata')).1
      rwa [List.sum_singleton, List.take_of_length_le (by omega), List.take_of_length_le (by omega)] at hsame
    · rintro rfl
      exact hread

theorem opens_iff (hcap : ∀ s ∈ streams, s.entries.length < maxIndexEntries) {path : String} {data : Bytes} :
    Opens (fetchFrom e t) fmt (streams.map Stored.disk) path data ↔
      ∃ n info, (listing streams).find? (fun y => shownAs y = normalizePath path) = some (n, .file info data) := by
  have hfind : ((listing streams).find? fun y => shownAs y = normalizePath path).map itemOf =
      ((indexed streams).find? fun x => (entryOf x.1 x.2.2).any fun e => e.path = normalizePath path).map
        fun x => x.2.2.1 := listing_find (normalizePath path)
  have hindex : find ((indexed streams).filterMap fun x => entryOf x.1 x.2.2) path =
      ((indexed streams).find? fun x => (entryOf x.1 x.2.2).any fun e => e.path = normalizePath path).bind
        fun x => entryOf x.1 x.2.2 := by
    rw [find, List.find?_filterMap]
  rw [Opens, browseOpenFile, browseIndex_eq hcap]
  dsimp only
  rw [hindex]
  cases hx : (indexed streams).find? fun x => (entryOf x.1 x.2.2).any fun e => e.path = normalizePath path with
  | none =>
    rw [hx, Option.map_none, Option.map_eq_none_iff] at hfind
    rw [hfind]
    exact iff_of_false nofun nofun
  | some x =>
    rw [hx, Option.map_some, Option.map_eq_some_iff] at hfind
    obtain ⟨y, hy, heq⟩ := hfind
    obtain ⟨hlast, hmember⟩ := of_mem_indexed (List.mem_of_find?_eq_some hx)
    obtain ⟨hvisited, hshown⟩ := List.mem_filter.mp (List.mem_of_find?_eq_some hy)
    obtain ⟨name, s, it, off⟩ := x
    obtain rfl : itemOf y = it := heq
    have hentry := entryOf_itemOf (sound_visited hvisited) name off
    rw [if_neg (by simpa using hshown)] at hentry
    rw [hy, Option.bind_some, hentry]
    obtain ⟨n, ⟨info, data'⟩ | ⟨info⟩⟩ := y
    · have hreads : ∀ data, _ ↔ data = _ := fun data => reads_iff hmember rfl
      have hstream : streamNamed (streams.map Stored.disk) name = some (streamOf e s.units) := by
        rw [streamNamed_eq, hlast]
        rfl
      have hsize : (itemOf (n, Kind.file info data')).header.size = data'.length := rfl
      have hitem : (itemOf (n, Kind.file info data')).data = data' := rfl
      dsimp only at hreads
      simp only [hsize, hitem, Kind.isFile, Bool.not_true, Bool.false_eq_true, if_false, true_and, hstream] at hreads ⊢
      have hsame : (∃ n' info', some (n, Kind.file info data') = some (n', Kind.file info' data)) ↔ data = data' := by
        constructor
        · rintro ⟨n', info', h⟩
          cases h
          rfl
        · rintro rfl
          exact ⟨n, info, rfl⟩
      rw [hsame, ← hreads data]
      by_cases hzero : data'.length = 0
      · simp only [hzero, if_true]
        constructor
        · rintro ⟨x, sec, h, hdata⟩
          cases h
          exact hdata
        · exact fun h => ⟨_, _, rfl, h⟩
      · have hpos : 0 < data'.length := by omega
        simp only [hzero, hpos, if_true, if_false]
        constructor
        · rintro ⟨x, sec, h, hdata⟩
          cases h
          exact hdata
        · exact fun h => ⟨_, _, rfl, h⟩
    · refine iff_of_false ?_ ?_
      · rintro ⟨x, sec, h, -⟩
        cases h
      · rintro ⟨n', info', h⟩
        cases h

end Index

section Claim

variable {streams : List (Stored e t fmt)} {cwd dest : String} {d : Disk}

theorem fullRestore_file (habs : unixPaths.isAbs dest = true) (hroot : destOf dest ≠ [])
    (hfresh : Fresh (destOf dest) d) (hok : (fullRestore e t fmt (streams.map Stored.disk) cwd dest d).1 = none)
    (names : List (List Char)) (data : Bytes) :
    (fullRestore e t fmt (streams.map Stored.disk) cwd dest d).2 (destOf dest ++ names) = some (.file data) ↔
      lastFile names (unpackedOf streams) = some data := by
  rw [← content_eq, fullRestore_content habs hroot hfresh hok]

theorem shown_of_agrees (habs : unixPaths.isAbs dest = true) (hroot : destOf dest ≠ [])
    (hfresh : Fresh (destOf dest) d) (hcap : ∀ s ∈ streams, s.entries.length < maxIndexEntries)
    (hok : (fullRestore e t fmt (streams.map Stored.disk) cwd dest d).1 = none)
    (h : Agrees (fetchFrom e t) fmt (streams.map Stored.disk) (destOf dest)
      (fullRestore e t fmt (streams.map Stored.disk) cwd dest d).2) : Shown streams := by
  have hfile := fun names data => fullRestore_file habs hroot hfresh hok names data
  obtain ⟨hlisted, hwritten⟩ := h
  refine ⟨fun names data hlast => ?_, fun x hx hxfile => ?_⟩
  · obtain ⟨⟨idx, hidx, hin⟩, hopens⟩ := hlisted names data ((hfile names data).mpr hlast)
    rw [browseIndex_eq hcap] at hidx
    cases hidx
    exact ⟨mem_index_iff.mp hin, (opens_iff hcap).mp hopens⟩
  · obtain ⟨y, hy, hdir, hpath⟩ := mem_index_iff.mpr ⟨x, hx, hxfile, rfl⟩
    obtain ⟨names, data, hdata, hshown⟩ := hwritten _ (browseIndex_eq hcap) y hy hdir
    exact ⟨names, data, (hfile names data).mp hdata, hpath ▸ hshown⟩

/-- Browsing agrees with a full restore exactly where the files of the first stream are shown, and first
where they are looked up. -/
theorem agrees_iff (habs : unixPaths.isAbs dest = true) (hroot : destOf dest ≠ []) (hfresh : Fresh (destOf dest) d)
    (hcap : ∀ s ∈ streams, s.entries.length < maxIndexEntries)
    (hok : (fullRestore e t fmt (streams.map Stored.disk) cwd dest d).1 = none) :
    Agrees (fetchFrom e t) fmt (streams.map Stored.disk) (destOf dest)
      (fullRestore e t fmt (streams.map Stored.disk) cwd dest d).2 ↔ Shown streams := by
  have hfile := fun names data => fullRestore_file habs hroot hfresh hok names data
  constructor
  · exact shown_of_agrees habs hroot hfresh hcap hok
  · rintro ⟨hfiles, hothers⟩
    refine ⟨fun names data hdata => ?_, fun idx hidx x hx hdir => ?_⟩
    · obtain ⟨hin, hfirst⟩ := hfiles names data ((hfile names data).mp hdata)
      exact ⟨⟨_, browseIndex_eq hcap, mem_index_iff.mpr hin⟩, (opens_iff hcap).mpr hfirst⟩
    · rw [browseIndex_eq hcap] at hidx
      cases hidx
      obtain ⟨y, hy, hyfile, hpath⟩ := mem_index_iff.mp ⟨x, hx, hdir, rfl⟩
      obtain ⟨names, data, hlast, hshown⟩ := hothers y hy hyfile
      exact ⟨names, data, (hfile names data).mpr hlast, hpath ▸ hshown⟩

end Claim

section Plain

variable {names : List (List Char)}

def Unchanged (names : List (List Char)) : Prop :=
  '\\' ∉ joined names ∧ ∀ c rest, joined names = c :: ':' :: rest → 128 ≤ c.toNat

theorem dropColon_eq {p : List Char} (h : ∀ c rest, p = c :: ':' :: rest → 128 ≤ c.toNat) : dropColon p = p := by
  unfold dropColon
  split
  · rename_i c d rest
    rw [if_neg]
    rintro ⟨rfl, hlow⟩
    have hhigh := h c rest rfl
    omega
  · rfl

theorem normalizePath_of_clean (h : Proper names) (hne : names ≠ []) {text : List Char}
    (hslash : '\\' ∉ text) (hcolon : ∀ c rest, text = c :: ':' :: rest → 128 ≤ c.toNat)
    (hclean : unixClean (.ofList ('/' :: text)) = absText names) :
    normalizePath (.ofList text) = relText names := by
  have htext : dropColon (Text.toSlashes (String.ofList text).toList) = text := by
    rw [String.toList_ofList, Text.toSlashes_of_not_mem hslash, dropColon_eq hcolon]
  have habs : (absText names).toList = '/' :: joined names := by
    rw [absText, if_neg hne, String.toList_ofList, cons_joined hne]
  have hdots : relText names ≠ ".." := fun heq => (passes h hne).2 (.inr (.inl heq))
  have hkept : ¬ (relText names = "." ∨ relText names = "..") := not_or.mpr ⟨(passes h hne).1, hdots⟩
  unfold normalizePath
  dsimp only
  rw [htext, hclean, habs, List.head?_cons, if_pos rfl, List.tail_cons, ← relText, if_neg hkept]

theorem shownAs_unchanged {y : Agent.Entry} (hy : Sound y) (h : Unchanged y.1) : shownAs y = relText y.1 := by
  obtain ⟨names, k⟩ := y
  obtain ⟨hproper, hne⟩ := hy
  have hsplit : ('/' :: joined names).splitOn '/' = [] :: names := by
    rw [cons_joined hne, splitOn_slashed hproper.named.plain hne]
  cases k with
  | file info data =>
    refine normalizePath_of_clean hproper hne h.1 h.2 (unixClean_of_rooted rfl ?_)
    rw [hsplit, cleanSegments_nil, cleanSegments_proper true hproper]
    rfl
  | dir info =>
    have hlast : ¬ (joined names).getLast? = some '/' := fun hl => joined_last hproper.named '/' hl rfl
    show normalizePath (.ofList ((if (joined names).getLast? = some '/' then _ else joined names) ++ ['/'])) = _
    rw [if_neg hlast]
    refine normalizePath_of_clean hproper hne ?_ ?_ (unixClean_of_rooted rfl ?_)
    · simp [h.1]
    · intro c rest heq
      obtain ⟨text, htext⟩ : ∃ text, text = joined names := ⟨_, rfl⟩
      rw [← htext] at heq
      match text, htext, heq with
      | [], _, heq => cases heq
      | [_], _, heq => cases heq
      | c' :: d :: text, htext, heq =>
        obtain ⟨rfl, hrest⟩ := List.cons.inj heq
        obtain ⟨rfl, -⟩ := List.cons.inj hrest
        exact h.2 _ _ htext.symm
    · rw [← List.cons_append, List.splitOn_append_cons_self, hsplit, List.cons_append, cleanSegments_nil]
      exact cleanSegments_concat true hproper

theorem mem_of_lastFile {es : List Agent.Entry} {data : Bytes} (h : lastFile names es = some data) :
    ∃ info, (names, Kind.file info data) ∈ es := by
  induction es with
  | nil => cases h
  | cons y es ih =>
    rw [lastFile, Option.or_eq_some_iff] at h
    rcases h with h | ⟨-, h⟩
    · obtain ⟨info, hmem⟩ := ih h
      exact ⟨info, List.mem_cons_of_mem _ hmem⟩
    · obtain ⟨n, ⟨info, data'⟩ | ⟨info⟩⟩ := y
      · rw [fileAt] at h
        split at h
        · rename_i hn
          cases h
          exact ⟨info, hn ▸ List.mem_cons_self⟩
        · cases h
      · cases h

theorem lastFile_of_mem {es : List Agent.Entry} (hnodup : (es.map Prod.fst).Nodup) {info : Info} {data : Bytes}
    (h : (names, Kind.file info data) ∈ es) : lastFile names es = some data := by
  induction es with
  | nil => cases h
  | cons y es ih =>
    rw [List.map_cons, List.nodup_cons] at hnodup
    rw [lastFile]
    rcases List.mem_cons.mp h with rfl | h
    · have hnone : lastFile names es = none := by
        cases hlast : lastFile names es with
        | none => rfl
        | some data' =>
          obtain ⟨info', hmem⟩ := mem_of_lastFile hlast
          exact absurd (List.mem_map_of_mem hmem) hnodup.1
      rw [hnone, Option.none_or, fileAt, if_pos rfl]
    · rw [ih hnodup.2 h]
      rfl

theorem shown_of_unchanged {s : Stored e t fmt} (hnodup : (s.entries.map Prod.fst).Nodup)
    (h : ∀ y ∈ s.entries, Unchanged y.1) : Shown [s] := by
  have hshown : ∀ y ∈ s.entries, shownAs y = relText y.1 := fun y hy =>
    shownAs_unchanged (s.sound_entries y hy) (h y hy)
  have hvisited : visited [s] = s.entries := by
    rw [visited, List.flatMap_cons, List.flatMap_nil, List.append_nil, lastNamed, List.reverse_singleton,
      List.find?_cons_of_pos (by simp)]
    rfl
  have hne : ∀ y ∈ s.entries, relText y.1 ≠ "" := fun y hy =>
    relText_ne (s.sound_entries y hy).1 (s.sound_entries y hy).2
      (fun hnil => (hnil [] List.mem_cons_self).1.1 rfl) (List.not_mem_nil)
  have hlisting : listing [s] = s.entries := by
    rw [listing, hvisited, List.filter_eq_self]
    exact fun y hy => decide_eq_true (hshown y hy ▸ hne y hy)
  -- only the entry itself has the name
  have honly : ∀ y ∈ s.entries, ∀ y' ∈ s.entries, relText y.1 = relText y'.1 → y = y' := by
    intro y hy y' hy' heq
    have hjoined := String.ofList_injective heq
    exact List.inj_on_of_nodup_map hnodup hy hy' (joined_injective (s.sound_entries y hy).1.named.plain
      (s.sound_entries y' hy').1.named.plain (s.sound_entries y hy).2 (s.sound_entries y' hy').2 hjoined)
  refine ⟨fun names data hlast => ?_, fun y hy hfile => ?_⟩
  · obtain ⟨info, hmem⟩ : ∃ info, (names, Kind.file info data) ∈ s.entries := mem_of_lastFile hlast
    have hname := hshown _ hmem
    have hfixed : normalizePath (relText names) = relText names := hname
    rw [hlisting, hfixed, hfixed]
    refine ⟨⟨_, hmem, rfl, hname⟩, names, info, ?_⟩
    rw [List.find?_eq_some_iff_append]
    obtain ⟨before, after, hsplit⟩ := List.append_of_mem hmem
    refine ⟨decide_eq_true hname, before, after, hsplit, fun y hy => ?_⟩
    have hy' : y ∈ s.entries := by
      rw [hsplit]
      exact List.mem_append_left _ hy
    simp only [Bool.not_eq_eq_eq_not, Bool.not_true, decide_eq_false_iff_not, hshown y hy']
    intro heq
    have hsame := honly y hy' _ hmem heq
    rw [hsplit, List.map_append, List.nodup_append] at hnodup
    exact hnodup.2.2 _ (List.mem_map_of_mem hy) _ (List.mem_map_of_mem List.mem_cons_self) (by rw [hsame])
  · rw [hlisting] at hy
    obtain ⟨names, ⟨info, data⟩ | ⟨info⟩⟩ := y
    · exact ⟨names, data, lastFile_of_mem hnodup hy, rfl⟩
    · cases hfile

end Plain

end Model

def chunkEngine : Engine := newWithOptions (fun _ => "c") ⟨none, none⟩ ⟨1, "off", 0⟩

def chunkTarget (bytes : Bytes) : Target := ⟨(∅ : FinMap Sha ChunkObject).insert "c" ⟨bytes, 0⟩, ∅, ∅⟩

theorem chunkTarget_restorable (bytes : Bytes) : Restorable chunkEngine (chunkTarget bytes) bytes := by
  refine ⟨⟨bytes, 0⟩, AList.lookup_insert _, ?_⟩
  unfold decodeChunk
  split <;> rfl

def oneChunk (mount : Mount) (paths : List (List Char)) (bytes : Bytes) (hne : bytes ≠ []) (its : List Item)
    (hread : Readable posixClean mount paths) (hits : writeTar .posix posixClean mount.stat [] paths = .ok its)
    (hitems : items ustar [] ⟨bytes, some .unexpectedEOF⟩ = (its, .eof)) :
    Stored chunkEngine (chunkTarget bytes) ustar where
  name := "files.tar"
  units := [bytes]
  pf := .posix
  clean := posixClean
  mount := mount
  exclude := []
  paths := paths
  nonempty d hd := List.mem_singleton.mp hd ▸ hne
  restorable d hd := List.mem_singleton.mp hd ▸ chunkTarget_restorable bytes
  readable := hread
  sound x _ := sound_entryOf x
  written its' hits' more := by
    rw [hits] at hits'
    cases hits'
    rw [List.flatten_singleton]
    exact items_more hitems more

theorem bareDisk_fresh : Fresh (destOf "/restore") bareDisk := by
  have hne : destOf "/restore" ≠ [] := by decide +kernel
  refine ⟨by decide +kernel, fun p hp _ => if_neg fun hnil => ?_⟩
  rw [hnil] at hp
  exact hne (List.prefix_nil.mp hp)

theorem bareDisk_way {dest : String} :
    ∀ q ∈ Disk.route (pathSegments dest), ∀ data, bareDisk q ≠ some (.file data) := by
  intro q _ data hq
  unfold bareDisk at hq
  split at hq <;> cases hq

def folderBlocks (name file nameSum fileSum : String) (byte : UInt8) : Bytes :=
  headerBlock name "0000755" nameSum 53 "" ++
    withSize "00000000001" (headerBlock file "0000644" fileSum 48 "") ++ byte :: List.replicate 511 0

def docs : List Char := "/srv/docs".toList

def fileY : FileName := ⟨['y'], by decide, by decide, by decide, by decide⟩

/-- Two directories, each with a file. -/
def foldersMount : Mount where
  stat root :=
    if root = dataA then some (.dir ⟨0o755, 62135596800 * 10 ^ 9⟩
      (.file fileX ⟨0o644, 62135596800 * 10 ^ 9⟩ [1] .nil))
    else if root = docs then some (.dir ⟨0o755, 62135596800 * 10 ^ 9⟩
      (.file fileY ⟨0o644, 62135596800 * 10 ^ 9⟩ [2] .nil))
    else none
  distinct root info sub h := by
    split at h
    · cases h
      exact ⟨List.not_mem_nil, trivial⟩
    split at h
    · cases h
      exact ⟨List.not_mem_nil, trivial⟩
    · cases h

def dataUnit : Bytes := folderBlocks "data/" "data/x" "006656" "007037" 1

def docsUnit : Bytes := folderBlocks "docs/" "docs/y" "006675" "007057" 2 ++ List.replicate 1024 0

def foldersTar : Bytes := dataUnit ++ docsUnit

def foldersItems : List Item :=
  [⟨⟨"data/", .dir, 0o755, 0, 62135596800 * 10 ^ 9⟩, [], none⟩,
    ⟨⟨"data/x", .reg, 0o644, 1, 62135596800 * 10 ^ 9⟩, [1], none⟩,
    ⟨⟨"docs/", .dir, 0o755, 0, 62135596800 * 10 ^ 9⟩, [], none⟩,
    ⟨⟨"docs/y", .reg, 0o644, 1, 62135596800 * 10 ^ 9⟩, [2], none⟩]

theorem items_foldersTar : items ustar [] ⟨foldersTar, some .unexpectedEOF⟩ = (foldersItems, .eof) := by
  have hdata : next ustar [] ⟨foldersTar, some .unexpectedEOF⟩ =
      .entry ⟨⟨"data/", .dir, 0o755, 0, 62135596800 * 10 ^ 9⟩, [], none⟩
        ⟨foldersTar.drop 512, some .unexpectedEOF⟩ := by decide +kernel
  have hx : next ustar [] ⟨foldersTar.drop 512, some .unexpectedEOF⟩ =
      .entry ⟨⟨"data/x", .reg, 0o644, 1, 62135596800 * 10 ^ 9⟩, [1], none⟩
        ⟨foldersTar.drop 1536, some .unexpectedEOF⟩ := by decide +kernel
  have hdocs : next ustar [] ⟨foldersTar.drop 1536, some .unexpectedEOF⟩ =
      .entry ⟨⟨"docs/", .dir, 0o755, 0, 62135596800 * 10 ^ 9⟩, [], none⟩
        ⟨foldersTar.drop 2048, some .unexpectedEOF⟩ := by decide +kernel
  have hy : next ustar [] ⟨foldersTar.drop 2048, some .unexpectedEOF⟩ =
      .entry ⟨⟨"docs/y", .reg, 0o644, 1, 62135596800 * 10 ^ 9⟩, [2], none⟩
        ⟨List.replicate 1024 0, some .unexpectedEOF⟩ := by decide +kernel
  have hend : next ustar [] ⟨List.replicate 1024 0, some .unexpectedEOF⟩ = .ended .eof := by decide +kernel
  rw [items_entry hdata, items_entry hx, items_entry hdocs, items_entry hy, items_ended hend]
  rfl

/-- It tells the two units apart by their second byte. -/
def foldersEngine : Engine :=
  newWithOptions (fun d => if d.getD 1 0 = 97 then "c" else "d") ⟨none, none⟩ ⟨1, "off", 0⟩

def foldersTarget : Target :=
  ⟨((∅ : FinMap Sha ChunkObject).insert "d" ⟨docsUnit, 0⟩).insert "c" ⟨dataUnit, 0⟩, ∅, ∅⟩

theorem foldersTarget_restorable : ∀ d ∈ [dataUnit, docsUnit], Restorable foldersEngine foldersTarget d := by
  have hdata : foldersEngine.hash dataUnit = "c" := by decide +kernel
  have hdocs : foldersEngine.hash docsUnit = "d" := by decide +kernel
  intro d hd
  rcases List.mem_pair.mp hd with rfl | rfl
  · refine ⟨⟨dataUnit, 0⟩, ?_, ?_⟩
    · rw [hdata]
      exact AList.lookup_insert _
    · unfold decodeChunk
      split <;> rfl
  · refine ⟨⟨docsUnit, 0⟩, ?_, ?_⟩
    · rw [hdocs]
      exact (AList.lookup_insert_ne (by decide)).trans (AList.lookup_insert _)
    · unfold decodeChunk
      split <;> rfl

def foldersStored : Stored foldersEngine foldersTarget ustar where
  name := "files.tar"
  units := [dataUnit, docsUnit]
  pf := .posix
  clean := posixClean
  mount := foldersMount
  exclude := []
  paths := [dataA, docs]
  nonempty := by decide +kernel
  restorable := foldersTarget_restorable
  readable := by decide +kernel
  sound x _ := sound_entryOf x
  written its hits more := by
    have hwritten : writeTar .posix posixClean foldersMount.stat [] [dataA, docs] = .ok foldersItems := by
      decide +kernel
    have hflat : [dataUnit, docsUnit].flatten = foldersTar := by
      rw [List.flatten_cons, List.flatten_singleton, foldersTar]
    rw [hwritten] at hits
    cases hits
    rw [hflat]
    exact items_more items_foldersTar more

def foldersEntries : List Agent.Entry :=
  [([['d', 'a', 't', 'a']], .dir ⟨0o755, 62135596800 * 10 ^ 9⟩),
    ([['d', 'a', 't', 'a'], ['x']], .file ⟨0o644, 62135596800 * 10 ^ 9⟩ [1]),
    ([['d', 'o', 'c', 's']], .dir ⟨0o755, 62135596800 * 10 ^ 9⟩),
    ([['d', 'o', 'c', 's'], ['y']], .file ⟨0o644, 62135596800 * 10 ^ 9⟩ [2])]

theorem folders_browsed :
    Agrees (fetchFrom foldersEngine foldersTarget) ustar [foldersStored.disk] (destOf "/restore")
      (fullRestore foldersEngine foldersTarget ustar [foldersStored.disk] "/" "/restore" bareDisk).2 := by
  have hroot : destOf "/restore" ≠ [] := by decide +kernel
  have habs : unixPaths.isAbs "/restore" = true := by decide +kernel
  have hentries : unpackedOf [foldersStored] = foldersEntries := by decide +kernel
  have hok : (fullRestore foldersEngine foldersTarget ustar ([foldersStored].map Stored.disk) "/" "/restore"
      bareDisk).1 = none := by
    refine fullRestore_ok habs hroot bareDisk_way ?_
    rw [hentries]
    decide +kernel
  refine (agrees_iff habs hroot bareDisk_fresh ?_ hok).mpr (shown_of_unchanged ?_ ?_)
  · intro s hs
    have hlen : foldersStored.entries.length = 4 := congrArg List.length hentries
    rw [List.mem_singleton.mp hs, hlen]
    unfold maxIndexEntries
    decide
  · exact (by decide +kernel : (foldersEntries.map Prod.fst).Nodup)
  · intro y hy
    have hy' : y ∈ foldersEntries := hentries ▸ hy
    have hplain : ∀ y ∈ foldersEntries, '\\' ∉ joined y.1 ∧
        ¬ ∃ c ∈ (joined y.1).head?, joined y.1 = c :: ':' :: (joined y.1).drop 2 := by
      decide +kernel
    refine ⟨(hplain y hy').1, fun c rest heq => ?_⟩
    exact absurd ⟨c, by rw [heq]; rfl, by rw [heq]; rfl⟩ (hplain y hy').2

/-- A directory at each of two paths, both with a file `x`. -/
def dataMount : Mount where
  stat root :=
    if root = dataA then some (.dir ⟨0o755, 62135596800 * 10 ^ 9⟩
      (.file fileX ⟨0o644, 62135596800 * 10 ^ 9⟩ [1] .nil))
    else if root = dataB then some (.dir ⟨0o755, 62135596800 * 10 ^ 9⟩
      (.file fileX ⟨0o644, 62135596800 * 10 ^ 9⟩ [2] .nil))
    else none
  distinct root info sub h := by
    split at h
    · cases h
      exact ⟨List.not_mem_nil, trivial⟩
    split at h
    · cases h
      exact ⟨List.not_mem_nil, trivial⟩
    · cases h

def dataBlocks (byte : UInt8) : Bytes := folderBlocks "data/" "data/x" "006656" "007037" byte

def dataTar : Bytes := dataBlocks 1 ++ dataBlocks 2 ++ List.replicate 1024 0

def dataDir : Item := ⟨⟨"data/", .dir, 0o755, 0, 62135596800 * 10 ^ 9⟩, [], none⟩

def dataFile (byte : UInt8) : Item := ⟨⟨"data/x", .reg, 0o644, 1, 62135596800 * 10 ^ 9⟩, [byte], none⟩

theorem items_dataTar : items ustar [] ⟨dataTar, some .unexpectedEOF⟩ =
    ([dataDir, dataFile 1, dataDir, dataFile 2], .eof) := by
  have hdir : next ustar [] ⟨dataTar, some .unexpectedEOF⟩ =
      .entry dataDir ⟨dataTar.drop 512, some .unexpectedEOF⟩ := by decide +kernel
  have hfile : next ustar [] ⟨dataTar.drop 512, some .unexpectedEOF⟩ =
      .entry (dataFile 1) ⟨dataTar.drop 1536, some .unexpectedEOF⟩ := by decide +kernel
  have hdir' : next ustar [] ⟨dataTar.drop 1536, some .unexpectedEOF⟩ =
      .entry dataDir ⟨dataTar.drop 2048, some .unexpectedEOF⟩ := by decide +kernel
  have hfile' : next ustar [] ⟨dataTar.drop 2048, some .unexpectedEOF⟩ =
      .entry (dataFile 2) ⟨List.replicate 1024 0, some .unexpectedEOF⟩ := by decide +kernel
  have hend : next ustar [] ⟨List.replicate 1024 0, some .unexpectedEOF⟩ = .ended .eof := by decide +kernel
  rw [items_entry hdir, items_entry hfile, items_entry hdir', items_entry hfile', items_ended hend]

def dataStored : Stored chunkEngine (chunkTarget dataTar) ustar :=
  oneChunk dataMount [dataA, dataB] dataTar (by decide +kernel) [dataDir, dataFile 1, dataDir, dataFile 2]
    (by decide +kernel) (by decide +kernel) items_dataTar

def dataEntries : List Agent.Entry :=
  [([['d', 'a', 't', 'a']], .dir ⟨0o755, 62135596800 * 10 ^ 9⟩),
    ([['d', 'a', 't', 'a'], ['x']], .file ⟨0o644, 62135596800 * 10 ^ 9⟩ [1]),
    ([['d', 'a', 't', 'a']], .dir ⟨0o755, 62135596800 * 10 ^ 9⟩),
    ([['d', 'a', 't', 'a'], ['x']], .file ⟨0o644, 62135596800 * 10 ^ 9⟩ [2])]

/-- A full restore leaves the second file, and browsing opens the first. -/
theorem data_disagrees :
    (fullRestore chunkEngine (chunkTarget dataTar) ustar [dataStored.disk] "/" "/restore" bareDisk).1 = none ∧
      (∀ s ∈ [dataStored], s.entries.length < maxIndexEntries) ∧
      ¬ Agrees (fetchFrom chunkEngine (chunkTarget dataTar)) ustar [dataStored.disk] (destOf "/restore")
        (fullRestore chunkEngine (chunkTarget dataTar) ustar [dataStored.disk] "/" "/restore" bareDisk).2 := by
  have hroot : destOf "/restore" ≠ [] := by decide +kernel
  have habs : unixPaths.isAbs "/restore" = true := by decide +kernel
  have hentries : unpackedOf [dataStored] = dataEntries := by decide +kernel
  have hok : (fullRestore chunkEngine (chunkTarget dataTar) ustar ([dataStored].map Stored.disk) "/" "/restore"
      bareDisk).1 = none := by
    refine fullRestore_ok habs hroot bareDisk_way ?_
    rw [hentries]
    decide +kernel
  have hcap : ∀ s ∈ [dataStored], s.entries.length < maxIndexEntries := by
    intro s hs
    have hlen : dataStored.entries.length = 4 := congrArg List.length hentries
    rw [List.mem_singleton.mp hs, hlen]
    unfold maxIndexEntries
    decide
  refine ⟨hok, hcap, fun h => ?_⟩
  have hshown := shown_of_agrees habs hroot bareDisk_fresh hcap hok h
  have hlast : lastFile [['d', 'a', 't', 'a'], ['x']] (unpackedOf [dataStored]) = some [2] := by
    rw [hentries]
    decide +kernel
  obtain ⟨-, n, info, hfirst⟩ := hshown.files _ _ hlast
  have hfound : (listing [dataStored]).find? (fun x => shownAs x =
      normalizePath (normalizePath (relText [['d', 'a', 't', 'a'], ['x']]))) =
        some ([['d', 'a', 't', 'a'], ['x']], .file ⟨0o644, 62135596800 * 10 ^ 9⟩ [1]) := by decide +kernel
  rw [hfound] at hfirst
  cases hfirst

end ProxBack.Browse
