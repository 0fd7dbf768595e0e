import ProxBack.Engine.GcSafe
import Mathlib.Data.Finmap

/-! One pass run alone, with every call answered: which chunks it deletes, which
rows it drops, what it counts, and that a second pass finds nothing to do. -/
namespace ProxBack.Engine
open Lib Prog

/-- The target as it answers a pass that nothing disturbs, the clock standing
at `now`. -/
def Target.alone (now : Time) (c : Call) (t : Target) : Reply c × Target :=
  Target.exec c { clock := now } t

def Target.Decodable (t : Target) : Prop := ∀ key, t.manifests.lookup key ≠ some none

def Target.inUse (t : Target) (keys : List ManifestKey) : List Sha :=
  keys.flatMap fun key => match t.manifests.lookup key with
    | some (some m) => m.hashes
    | _ => []

@[simp] theorem Target.mem_inUse {t : Target} {sha : Sha} :
    sha ∈ t.inUse t.manifests.keys ↔ t.Named sha := by
  simp only [Target.inUse, List.mem_flatMap, Target.Named]
  constructor
  · rintro ⟨key, hkey, hsha⟩
    split at hsha
    · rename_i m hm
      exact ⟨key, m, hm, hsha⟩
    · cases hsha
  · rintro ⟨key, m, hm, hsha⟩
    have hkey : key ∈ t.manifests := AList.lookup_isSome.mp (by rw [hm]; rfl)
    refine ⟨key, AList.mem_keys.mp hkey, ?_⟩
    rw [hm]
    exact hsha

instance (t : Target) (sha : Sha) : Decidable (t.Named sha) :=
  decidable_of_iff _ Target.mem_inUse

/-- How old a chunk is known to be: by its index row if that carries a time,
else by the target's timestamp. -/
def Target.knownAge (t : Target) (now : Time) (sha : Sha) : Option Int :=
  let modified := match t.chunks.lookup sha with
    | some o => if o.lastModified ≠ 0 then some (Time.sub now o.lastModified) else none
    | none => none
  match t.index.lookup sha with
  | some row => if row.addedAt ≠ 0 then some (Time.sub now row.addedAt) else modified
  | none => modified

/-- An unreferenced chunk is due when the window is off, or its age is unknown,
or its age has reached the window. -/
def Target.Due (t : Target) (e : Engine) (now : Time) (sha : Sha) : Prop :=
  e.gcGrace ≤ 0 ∨ ∀ age ∈ t.knownAge now sha, e.gcGrace ≤ age

instance (t : Target) (e : Engine) (now : Time) (sha : Sha) : Decidable (t.Due e now sha) :=
  inferInstanceAs (Decidable (_ ∨ _))

theorem run_gcManifests (now : Time) {t : Target} (hdec : t.Decodable)
    (keys : List ManifestKey) (hkeys : ∀ key ∈ keys, key ∈ t.manifests) (res : GCResult)
    (referenced : List Sha) :
    ∃ ref, run (Target.alone now) (gcManifests keys res referenced) t =
        (({ res with manifestsScanned := res.manifestsScanned + keys.length }, .ok ref), t) ∧
      ∀ sha, sha ∈ ref ↔ sha ∈ t.inUse keys ∨ sha ∈ referenced := by
  induction keys generalizing res referenced with
  | nil => exact ⟨referenced, rfl, by simp [Target.inUse]⟩
  | cons key rest ih =>
    have hrest : ∀ key ∈ rest, key ∈ t.manifests := fun k hk => hkeys k (List.mem_cons_of_mem _ hk)
    have hkey : (t.manifests.lookup key).isSome := by
      exact AList.lookup_isSome.mpr (hkeys key List.mem_cons_self)
    obtain ⟨value, hvalue⟩ := Option.isSome_iff_exists.mp hkey
    cases value with
    | none => exact absurd hvalue (hdec key)
    | some m =>
      obtain ⟨ref, hrun, hmem⟩ := ih hrest
        { res with manifestsScanned := res.manifestsScanned + 1 } (m.hashes ++ referenced)
      have hans : (Target.alone now (.getManifest key) t) = (.ok (some m), t) := by
        simp [Target.alone, Target.exec, Choice.answer, hvalue]
      refine ⟨ref, ?_, ?_⟩
      · rw [gcManifests, run_call, hans]
        dsimp only
        rw [hrun, List.length_cons]
        congr 3
        exact Nat.add_right_comm _ _ _
      · intro sha
        rw [hmem sha]
        simp only [Target.inUse, List.flatMap_cons, hvalue, List.mem_append]
        tauto

theorem run_forChunks {α : Type} (now : Time) (t : Target) (visit : α → Object → α)
    (shas : List Sha) (acc : α) :
    run (Target.alone now) (forChunks (fun acc o => .ret (visit acc o, none)) shas acc) t =
      (((shas.filterMap t.entry).foldl visit acc, none), t) := by
  induction shas generalizing acc with
  | nil => rfl
  | cons sha rest ih =>
    have hans : Target.alone now (.walkChunk sha) t = (.ok (t.entry sha), t) := rfl
    rw [forChunks, run_call, hans]
    cases hentry : t.entry sha with
    | none =>
      rw [List.filterMap_cons_none hentry]
      exact ih acc
    | some o =>
      rw [List.filterMap_cons_some hentry]
      exact ih (visit acc o)

theorem foldl_gcVisit (e : Engine) (now : Time) (indexed : FinMap Sha Time)
    (referenced : List Sha) (objs : List Object) (acc : Sweep) :
    objs.foldl (e.gcVisit now indexed referenced) acc =
      ⟨{ acc.res with
          chunksScanned := acc.res.chunksScanned + objs.length
          chunksSkippedRecent := acc.res.chunksSkippedRecent +
            (objs.filter fun o => o.sha ∉ referenced ∧ e.spared now indexed o).length
          bytesSkippedRecent := acc.res.bytesSkippedRecent +
            ((objs.filter fun o => o.sha ∉ referenced ∧ e.spared now indexed o).map
              Object.size).sum },
        (objs.map Object.sha).reverse ++ acc.present,
        acc.doomed ++ objs.filter fun o => o.sha ∉ referenced ∧ ¬ e.spared now indexed o⟩ := by
  induction objs generalizing acc with
  | nil => simp
  | cons o rest ih =>
    rw [List.foldl_cons, ih]
    unfold gcVisit
    have hlen : acc.res.chunksScanned + 1 + rest.length =
        acc.res.chunksScanned + (rest.length + 1) := by omega
    by_cases href : o.sha ∈ referenced
    · simp [href, hlen]
    · by_cases hspared : e.spared now indexed o
      · simp [href, hspared, hlen, Nat.add_assoc, Nat.add_comm, Nat.add_left_comm]
      · simp [href, hspared, hlen]

def Target.without (t : Target) (shas : List Sha) : Target :=
  shas.foldl (fun t sha => (t.deleteObject sha).dropRow sha) t

@[simp] theorem Target.without_manifests (t : Target) (shas : List Sha) :
    (t.without shas).manifests = t.manifests := by
  induction shas generalizing t with
  | nil => rfl
  | cons sha rest ih => exact ih _

@[simp] theorem Target.without_chunks (t : Target) (shas : List Sha) (sha : Sha) :
    (t.without shas).chunks.lookup sha = if sha ∈ shas then none else t.chunks.lookup sha := by
  induction shas generalizing t with
  | nil => simp [Target.without]
  | cons a rest ih =>
    have hstep : t.without (a :: rest) = ((t.deleteObject a).dropRow a).without rest := rfl
    rw [hstep, ih]
    simp only [Target.deleteObject, Target.dropRow, FinMap.lookup_erase_ite, List.mem_cons]
    by_cases hrest : sha ∈ rest <;> by_cases ha : sha = a <;> simp [hrest, ha]

@[simp] theorem Target.without_index (t : Target) (shas : List Sha) (sha : Sha) :
    (t.without shas).index.lookup sha = if sha ∈ shas then none else t.index.lookup sha := by
  induction shas generalizing t with
  | nil => simp [Target.without]
  | cons a rest ih =>
    have hstep : t.without (a :: rest) = ((t.deleteObject a).dropRow a).without rest := rfl
    rw [hstep, ih]
    simp only [Target.deleteObject, Target.dropRow, FinMap.lookup_erase_ite, List.mem_cons]
    by_cases hrest : sha ∈ rest <;> by_cases ha : sha = a <;> simp [hrest, ha]

theorem run_gcDelete (now : Time) (doomed : List Object) (res : GCResult) (t : Target) :
    run (Target.alone now) (gcDelete doomed res) t =
      (({ res with
          chunksDeleted := res.chunksDeleted + doomed.length
          bytesFreed := res.bytesFreed + (doomed.map Object.size).sum }, none),
        t.without (doomed.map Object.sha)) := by
  induction doomed generalizing res t with
  | nil => rfl
  | cons o rest ih =>
    have hdelete : Target.alone now (.delete o.sha) t = (.ok (), t.deleteObject o.sha) := rfl
    have hdrop : Target.alone now (.deleteChunk o.sha) (t.deleteObject o.sha) =
        (.ok (), (t.deleteObject o.sha).dropRow o.sha) := rfl
    rw [gcDelete, run_call, hdelete]
    dsimp only
    rw [run_call, hdrop]
    dsimp only
    rw [ih]
    simp only [List.length_cons, List.map_cons, List.sum_cons, Target.without, List.foldl_cons]
    congr 3
    · omega
    · omega

def Target.dropRows (t : Target) (shas : List Sha) : Target := shas.foldl Target.dropRow t

theorem Target.dropRows_chunks (t : Target) (shas : List Sha) :
    (t.dropRows shas).chunks = t.chunks ∧ (t.dropRows shas).manifests = t.manifests := by
  induction shas generalizing t with
  | nil => exact ⟨rfl, rfl⟩
  | cons sha rest ih => exact ih _

@[simp] theorem Target.dropRows_index (t : Target) (shas : List Sha) (sha : Sha) :
    (t.dropRows shas).index.lookup sha = if sha ∈ shas then none else t.index.lookup sha := by
  induction shas generalizing t with
  | nil => simp [Target.dropRows]
  | cons a rest ih =>
    have hstep : t.dropRows (a :: rest) = (t.dropRow a).dropRows rest := rfl
    rw [hstep, ih]
    simp only [Target.dropRow, FinMap.lookup_erase_ite, List.mem_cons]
    by_cases hrest : sha ∈ rest <;> by_cases ha : sha = a <;> simp [hrest, ha]

theorem run_gcReconcile (now : Time) (present shas : List Sha) (res : GCResult) (t : Target) :
    run (Target.alone now) (gcReconcile present shas res) t =
      (({ res with
          indexRowsDropped := res.indexRowsDropped +
            (shas.filter fun sha => sha ∉ present).length }, none),
        t.dropRows (shas.filter fun sha => sha ∉ present)) := by
  induction shas generalizing res t with
  | nil => rfl
  | cons sha rest ih =>
    unfold gcReconcile
    split
    · rename_i hin
      rw [ih]
      simp [hin]
    · rename_i hout
      have hdrop : Target.alone now (.deleteChunk sha) t = (.ok (), t.dropRow sha) := rfl
      rw [run_call, hdrop]
      dsimp only
      rw [ih]
      simp only [hout, not_false_eq_true, decide_true, List.filter_cons_of_pos,
        List.length_cons, Target.dropRows, List.foldl_cons]
      congr 3
      omega

def Target.storedSize (t : Target) (sha : Sha) : Nat :=
  match t.chunks.lookup sha with
  | some o => o.data.length
  | none => 0

theorem Target.entry_eq_some {t : Target} {sha : Sha} {o : Object} (h : t.entry sha = some o) :
    ∃ obj, t.chunks.lookup sha = some obj ∧ o = ⟨sha, obj.data.length, obj.lastModified⟩ := by
  obtain ⟨obj, hobj, rfl⟩ := Option.map_eq_some_iff.mp h
  exact ⟨obj, hobj, rfl⟩

theorem Target.entry_of_mem {t : Target} {sha : Sha} (h : sha ∈ t.chunks) :
    ∃ o, t.entry sha = some o := by
  obtain ⟨obj, hobj⟩ := Option.isSome_iff_exists.mp (AList.lookup_isSome.mpr h)
  exact ⟨_, by rw [Target.entry, hobj]; rfl⟩

private theorem entries_filter (t : Target) (shas : List Sha) (hshas : ∀ sha ∈ shas, sha ∈ t.chunks)
    (p : Object → Bool) (q : Sha → Bool) (hpq : ∀ sha o, t.entry sha = some o → p o = q sha) :
    ((shas.filterMap t.entry).filter p).map Object.sha = shas.filter q ∧
      ((shas.filterMap t.entry).filter p).map Object.size =
        (shas.filter q).map t.storedSize := by
  induction shas with
  | nil => exact ⟨rfl, rfl⟩
  | cons sha rest ih =>
    obtain ⟨ihsha, ihsize⟩ := ih fun s hs => hshas s (List.mem_cons_of_mem _ hs)
    obtain ⟨o, ho⟩ := Target.entry_of_mem (hshas sha List.mem_cons_self)
    obtain ⟨obj, hobj, heq⟩ := Target.entry_eq_some ho
    have hsize : t.storedSize sha = o.size := by rw [Target.storedSize, hobj, heq]
    have hsha : o.sha = sha := by rw [heq]
    rw [List.filterMap_cons_some ho]
    have hpo := hpq sha o ho
    cases hq : q sha with
    | true =>
      rw [hq] at hpo
      simp [hpo, hq, ihsha, ihsize, hsize, hsha]
    | false =>
      rw [hq] at hpo
      simp [hpo, hq, ihsha, ihsize]

theorem spared_iff (e : Engine) (now : Time) {t : Target} {sha : Sha} {o : Object}
    (h : t.entry sha = some o) :
    e.spared now (FinMap.mapVal IndexRow.addedAt t.index) o = true ↔ ¬ t.Due e now sha := by
  obtain ⟨obj, hobj, rfl⟩ := Target.entry_eq_some h
  unfold spared chunkAge Target.Due Target.knownAge
  simp only [FinMap.lookup_mapVal, hobj]
  by_cases hgrace : e.gcGrace ≤ 0
  · simp [hgrace]
  · cases hrow : t.index.lookup sha with
    | none => by_cases hmod : obj.lastModified = 0 <;> simp [hgrace, hmod]
    | some row =>
      by_cases hadded : row.addedAt = 0
      · by_cases hmod : obj.lastModified = 0 <;> simp [hgrace, hadded, hmod]
      · simp [hgrace, hadded]

def Target.collectable (t : Target) (e : Engine) (now : Time) : List Sha :=
  t.chunks.keys.filter fun sha => ¬ t.Named sha ∧ t.Due e now sha

def Target.recent (t : Target) (e : Engine) (now : Time) : List Sha :=
  t.chunks.keys.filter fun sha => ¬ t.Named sha ∧ ¬ t.Due e now sha

def Target.strayRows (t : Target) : List Sha :=
  t.index.keys.filter fun sha => ¬ t.Present sha

@[simp] theorem Target.listed_nil {K : Type} [DecidableEq K] (keys : List K) :
    Target.listed keys [] = keys := List.append_nil keys

theorem run_gc (e : Engine) (now : Time) (t : Target) (hdec : t.Decodable) :
    run (Target.alone now) e.gc t =
      ((⟨t.manifests.keys.length, t.chunks.keys.length, (t.collectable e now).length,
          ((t.collectable e now).map t.storedSize).sum, t.strayRows.length,
          (t.recent e now).length, ((t.recent e now).map t.storedSize).sum⟩, none),
        (t.without (t.collectable e now)).dropRows t.strayRows) := by
  obtain ⟨ref, hman, href⟩ := run_gcManifests now hdec t.manifests.keys
    (fun key hkey => AList.mem_keys.mpr hkey) .zero []
  have href : ∀ sha, sha ∈ ref ↔ t.Named sha := by
    intro sha
    rw [href sha, Target.mem_inUse]
    simp
  have hwalk : Target.alone now .walkManifests t = (.ok t.manifests.keys, t) := by
    simp [Target.alone, Target.exec, Target.listed_nil, Choice.answer]
  have hindex : Target.alone now .chunkAddedAt t =
      (.ok (FinMap.mapVal IndexRow.addedAt t.index), t) := rfl
  have hnow : Target.alone now .now t = (now, t) := rfl
  have hchunks : Target.alone now .walkChunks t = (.ok t.chunks.keys, t) := by
    simp [Target.alone, Target.exec, Target.listed_nil, Choice.answer]
  have hkeys : ∀ sha ∈ t.chunks.keys, sha ∈ t.chunks := fun sha h => AList.mem_keys.mpr h
  have hdoomed := entries_filter t t.chunks.keys hkeys
    (fun o => o.sha ∉ ref ∧ ¬ e.spared now (FinMap.mapVal IndexRow.addedAt t.index) o)
    (fun sha => ¬ t.Named sha ∧ t.Due e now sha) (by
      intro sha o ho
      have hspared := spared_iff e now ho
      obtain ⟨obj, _, rfl⟩ := Target.entry_eq_some ho
      simp only [href, hspared, not_not])
  have hspared := entries_filter t t.chunks.keys hkeys
    (fun o => o.sha ∉ ref ∧ e.spared now (FinMap.mapVal IndexRow.addedAt t.index) o)
    (fun sha => ¬ t.Named sha ∧ ¬ t.Due e now sha) (by
      intro sha o ho
      have hspared := spared_iff e now ho
      obtain ⟨obj, _, rfl⟩ := Target.entry_eq_some ho
      simp only [href, hspared])
  have hdoomedLen := congrArg List.length hdoomed.1
  rw [List.length_map] at hdoomedLen
  have hsparedLen := congrArg List.length hspared.1
  rw [List.length_map] at hsparedLen
  have hall := entries_filter t t.chunks.keys hkeys (fun _ => true) (fun _ => true)
    (fun _ _ _ => rfl)
  simp only [List.filter_true] at hall
  have hlen : (t.chunks.keys.filterMap t.entry).length = t.chunks.keys.length := by
    rw [← List.length_map (f := Object.sha), hall.1]
  have hstray : (t.index.keys.filter fun sha => sha ∉ t.chunks.keys.reverse) = t.strayRows := by
    apply List.filter_congr
    intro sha _
    simp [Target.Present, AList.lookup_isSome, AList.mem_keys]
  rw [gc, run_call, hwalk]
  dsimp only
  rw [run_bind, hman]
  dsimp only
  rw [gcSweep, run_call, hindex]
  dsimp only
  rw [run_call, hnow]
  dsimp only
  rw [run_call, hchunks]
  dsimp only
  rw [run_bind, run_forChunks, foldl_gcVisit]
  dsimp only
  rw [gcCollect, run_bind, run_gcDelete]
  dsimp only
  rw [run_gcReconcile]
  simp only [List.nil_append, hall.1, FinMap.keys_mapVal, List.append_nil, hstray, hlen,
    hdoomedLen, hsparedLen, hdoomed.1, hdoomed.2, hspared.2]
  simp [GCResult.zero, Target.collectable, Target.recent]

def Target.collected (t : Target) (e : Engine) (now : Time) : Target :=
  (t.without (t.collectable e now)).dropRows t.strayRows

section Collected

variable (t : Target) (e : Engine) (now : Time)

@[simp] theorem Target.collected_manifests : (t.collected e now).manifests = t.manifests := by
  rw [Target.collected, (Target.dropRows_chunks _ _).2, Target.without_manifests]

@[simp] theorem Target.collected_chunks (sha : Sha) :
    (t.collected e now).chunks.lookup sha =
      if sha ∈ t.collectable e now then none else t.chunks.lookup sha := by
  rw [Target.collected, (Target.dropRows_chunks _ _).1, Target.without_chunks]

theorem Target.collected_index (sha : Sha) :
    (t.collected e now).index.lookup sha =
      if sha ∈ t.collectable e now ∨ sha ∈ t.strayRows then none else t.index.lookup sha := by
  rw [Target.collected, Target.dropRows_index, Target.without_index]
  by_cases hstray : sha ∈ t.strayRows <;> by_cases hcoll : sha ∈ t.collectable e now <;>
    simp [hstray, hcoll]

@[simp] theorem Target.mem_collectable (sha : Sha) :
    sha ∈ t.collectable e now ↔ t.Present sha ∧ ¬ t.Named sha ∧ t.Due e now sha := by
  simp [Target.collectable, Target.Present, AList.lookup_isSome, AList.mem_keys]

@[simp] theorem Target.mem_strayRows (sha : Sha) :
    sha ∈ t.strayRows ↔ t.Indexed sha ∧ ¬ t.Present sha := by
  simp [Target.strayRows, Target.Indexed, AList.lookup_isSome, AList.mem_keys]

theorem Target.collected_named (sha : Sha) :
    (t.collected e now).Named sha ↔ t.Named sha := by
  unfold Target.Named
  rw [Target.collected_manifests]

theorem Target.collected_present (sha : Sha) :
    (t.collected e now).Present sha ↔ t.Present sha ∧ sha ∉ t.collectable e now := by
  unfold Target.Present
  rw [Target.collected_chunks]
  by_cases hcoll : sha ∈ t.collectable e now <;> simp [hcoll]

@[grind =] theorem Target.collected_row {sha : Sha} (h : (t.collected e now).Present sha) :
    (t.collected e now).index.lookup sha = t.index.lookup sha := by
  obtain ⟨hpresent, hcoll⟩ := (t.collected_present e now sha).mp h
  rw [Target.collected_index, if_neg]
  intro hor
  rcases hor with hin | hin
  · exact hcoll hin
  · exact ((t.mem_strayRows sha).mp hin).2 hpresent

theorem Target.collected_sound : (t.collected e now).Sound := by
  intro sha hidx
  have hrow : (t.collected e now).index.lookup sha ≠ none := by
    intro hnone
    rw [Target.Indexed, hnone] at hidx
    cases hidx
  rw [Target.collected_index] at hrow
  have hout : ¬ (sha ∈ t.collectable e now ∨ sha ∈ t.strayRows) := fun h => hrow (if_pos h)
  rw [if_neg hout] at hrow
  have hidx' : t.Indexed sha := Option.isSome_iff_ne_none.mpr hrow
  apply (t.collected_present e now sha).mpr
  constructor
  · by_contra habsent
    exact hout (.inr ((t.mem_strayRows sha).mpr ⟨hidx', habsent⟩))
  · exact fun h => hout (.inl h)

theorem Target.collected_due {sha : Sha} (h : (t.collected e now).Present sha) :
    (t.collected e now).Due e now sha ↔ t.Due e now sha := by
  have hcoll := ((t.collected_present e now sha).mp h).2
  unfold Target.Due Target.knownAge
  rw [t.collected_row e now h, Target.collected_chunks, if_neg hcoll]

@[simp] theorem Target.collected_collected :
    (t.collected e now).collected e now = t.collected e now := by
  have hcoll : (t.collected e now).collectable e now = [] := by
    apply List.eq_nil_iff_forall_not_mem.mpr
    intro sha hsha
    obtain ⟨hpresent, hnamed, hdue⟩ := (Target.mem_collectable _ e now sha).mp hsha
    rw [t.collected_due e now hpresent] at hdue
    rw [t.collected_named e now sha] at hnamed
    obtain ⟨hpresent, hout⟩ := (t.collected_present e now sha).mp hpresent
    exact hout ((t.mem_collectable e now sha).mpr ⟨hpresent, hnamed, hdue⟩)
  have hstray : (t.collected e now).strayRows = [] := by
    apply List.eq_nil_iff_forall_not_mem.mpr
    intro sha hsha
    obtain ⟨hidx, habsent⟩ := (Target.mem_strayRows _ sha).mp hsha
    exact habsent (t.collected_sound e now sha hidx)
  rw [Target.collected, hcoll, hstray]
  rfl

end Collected

/-- One pass run alone is exact, with a grace window of 0 meaning that every
unreferenced chunk is due; and a pass cut short at any call, whichever calls
failed before, has not touched a chunk some manifest names. -/
theorem gc_alone_exact (e : Engine) (now : Time) (t : Target) (hdec : t.Decodable) :
    ∃ res t', run (Target.alone now) e.gc t = ((res, none), t') ∧
      t'.manifests = t.manifests ∧
      (∀ sha, t.Named sha → t'.chunks.lookup sha = t.chunks.lookup sha) ∧
      (∀ sha, t.Present sha → ¬ t.Named sha →
        (¬ t'.Present sha ↔ t.Due e now sha) ∧
        (t'.Present sha → t'.chunks.lookup sha = t.chunks.lookup sha)) ∧
      (∀ sha, t'.Present sha → t.Present sha) ∧
      t'.Sound ∧
      (∀ sha, t'.Present sha → t'.index.lookup sha = t.index.lookup sha) ∧
      res.chunksDeleted = (t.chunks.keys.filter fun sha => ¬ t'.Present sha).length ∧
      res.bytesFreed =
        ((t.chunks.keys.filter fun sha => ¬ t'.Present sha).map t.storedSize).sum ∧
      res.chunksSkippedRecent =
        (t.chunks.keys.filter fun sha => t'.Present sha ∧ ¬ t.Named sha).length ∧
      res.indexRowsDropped = (t.index.keys.filter fun sha => ¬ t.Present sha).length ∧
      (run (Target.alone now) e.gc t').2 = t' ∧
      (∀ es q u, Steps Target.machine e.gc t es q u → ∀ sha, t.Named sha →
        u.chunks.lookup sha = t.chunks.lookup sha) := by
  have hpresent := t.collected_present e now
  have hgone : ∀ sha ∈ t.chunks.keys, (¬ (t.collected e now).Present sha ↔
      (¬ t.Named sha ∧ t.Due e now sha)) := by
    intro sha hsha
    have hthere : t.Present sha := AList.lookup_isSome.mpr (AList.mem_keys.mpr hsha)
    rw [hpresent, t.mem_collectable e now sha]
    simp only [hthere, true_and, not_not]
  have hdeleted : (t.chunks.keys.filter fun sha => ¬ (t.collected e now).Present sha) =
      t.collectable e now := by
    apply List.filter_congr
    intro sha hsha
    simp only [hgone sha hsha]
  have hkept : (t.chunks.keys.filter fun sha =>
      (t.collected e now).Present sha ∧ ¬ t.Named sha) = t.recent e now := by
    apply List.filter_congr
    intro sha hsha
    have h := hgone sha hsha
    simp only [decide_eq_decide]
    tauto
  have hdec' : (t.collected e now).Decodable := by
    intro key
    rw [t.collected_manifests e now]
    exact hdec key
  refine ⟨_, t.collected e now, run_gc e now t hdec, t.collected_manifests e now, ?_, ?_, ?_,
    t.collected_sound e now, fun sha h => t.collected_row e now h, ?_, ?_, ?_, rfl, ?_, ?_⟩
  · intro sha hnamed
    rw [t.collected_chunks e now sha, if_neg]
    exact fun h => ((t.mem_collectable e now sha).mp h).2.1 hnamed
  · intro sha hthere hnamed
    constructor
    · rw [hpresent, t.mem_collectable e now sha]
      simp only [hthere, hnamed, not_false_eq_true, true_and, not_not]
    · intro h
      rw [t.collected_chunks e now sha, if_neg ((hpresent sha).mp h).2]
  · exact fun sha h => ((hpresent sha).mp h).1
  · rw [hdeleted]
  · rw [hdeleted]
  · rw [hkept]
  · rw [run_gc e now _ hdec']
    exact t.collected_collected e now
  · intro es q u h sha hnamed
    exact (gc_steps_keep h hnamed).2

def mixedManifest : Manifest :=
  ⟨"b1", "job1", "nightly", "run1", .vm, "host_100", "web", "t1", 1, .full, "", 1, 1, chunkSize,
    [⟨"scsi0", 1, [⟨"c1", 1⟩]⟩]⟩

def mixedTarget : Target where
  chunks := ((AList.singleton "c0" ⟨[7, 7], 1⟩).insert "c1" ⟨[8], 1⟩).insert "c2"
    ⟨[9], 1 + defaultGCGrace⟩
  manifests := AList.singleton mixedManifest.key (some mixedManifest)
  index := ((AList.singleton "c1" ⟨1, 1⟩).insert "c2" ⟨1, 1 + defaultGCGrace⟩).insert "c3" ⟨1, 1⟩

def wholeDay : Engine := newWithOptions (fun _ => "c0") ⟨none, none⟩ ⟨4, "zstd", 0⟩

theorem gc_alone_exact_mixed : mixedTarget.Decodable ∧
    ∃ res t', run (Target.alone (2 + defaultGCGrace)) wholeDay.gc mixedTarget = ((res, none), t') ∧
      t'.Present "c1" ∧ ¬ t'.Present "c0" ∧ t'.Present "c2" ∧ res.chunksDeleted = 1 ∧
      res.bytesFreed = 2 ∧ res.chunksSkippedRecent = 1 ∧ res.indexRowsDropped = 1 := by
  have hdec : mixedTarget.Decodable := by
    intro key h
    have hkey : key ∈ [mixedManifest.key] := AList.lookup_isSome.mp (by rw [h]; rfl)
    rw [List.mem_singleton.mp hkey] at h
    cases h
  obtain ⟨res, t', hrun, -, hnamed, hdue, -, hsound, -, hdeleted, hfreed, hrecent, hdropped, -⟩ :=
    gc_alone_exact wholeDay (2 + defaultGCGrace) mixedTarget hdec
  have hc0 : ¬ t'.Present "c0" := ((hdue "c0" (by decide) (by decide)).1).mpr (by decide)
  have hc1 : t'.Present "c1" := by
    unfold Target.Present
    rw [hnamed "c1" (by decide)]
    decide
  have hc2 : t'.Present "c2" := by
    by_contra hgone
    exact absurd (((hdue "c2" (by decide) (by decide)).1).mp hgone) (by decide)
  have hkeys : mixedTarget.chunks.keys = ["c2", "c1", "c0"] := rfl
  have hn0 : ¬ mixedTarget.Named "c0" := by decide
  have hn1 : mixedTarget.Named "c1" := by decide
  have hn2 : ¬ mixedTarget.Named "c2" := by decide
  rw [hkeys] at hdeleted hfreed hrecent
  refine ⟨hdec, res, t', hrun, hc1, hc0, hc2, ?_, ?_, ?_, ?_⟩
  · simpa [hc0, hc1, hc2] using hdeleted
  · rw [hfreed]
    simp [hc0, hc1, hc2]
    rfl
  · simpa [hc0, hc1, hc2, hn0, hn1, hn2] using hrecent
  · rw [hdropped]
    rfl

/-- A target whose only chunk is unreferenced and stamped one nanosecond after
the clock. -/
def aheadTarget : Target where
  chunks := AList.singleton "c0" ⟨[7], 2⟩
  manifests := ∅
  index := AList.singleton "c0" ⟨1, 2⟩

def graceOff : Engine := newWithOptions (fun _ => "c0") ⟨none, none⟩ ⟨4, "zstd", -1⟩

/-- With the window off the age is not looked at, so a chunk from the future
goes although its age of minus one is below the window of 0. -/
theorem gc_alone_deletes_below_grace :
    ¬ ∀ (e : Engine) (now : Time) (t : Target), t.Decodable → ∀ sha, t.Present sha →
      ¬ t.Named sha → (¬ (run (Target.alone now) e.gc t).2.Present sha ↔
        ∀ age ∈ t.knownAge now sha, e.gcGrace ≤ age) := by
  intro h
  have hiff := h graceOff 1 aheadTarget (fun key h => nomatch h) "c0" (by decide) (by decide)
  exact absurd (hiff.mp (by decide) (-1) (by decide)) (by decide)

end ProxBack.Engine
