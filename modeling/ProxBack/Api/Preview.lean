import ProxBack.Api.Atoi
import ProxBack.Sched.RetentionPath

/-! The retention preview: the request, its answer, and when the answer is what a pass
with that policy would do. -/
namespace ProxBack.Api
open Lib Prog Engine Store Sched ChoiceRule

/-- `unicode.IsSpace`. -/
def isSpace (c : Char) : Bool :=
  c.toNat ∈ [0x09, 0x0A, 0x0B, 0x0C, 0x0D, 0x20, 0x85, 0xA0, 0x1680, 0x2028, 0x2029, 0x202F,
    0x205F, 0x3000] ∨ 0x2000 ≤ c.toNat ∧ c.toNat ≤ 0x200A

def trimSpace (s : String) : String :=
  String.ofList ((s.toList.dropWhile isSpace).reverse.dropWhile isSpace).reverse

def retentionFromQuery (query : String → String) (saved : RetentionPolicy) :
    Except PolicyErr RetentionPolicy :=
  RetentionPolicy.order.foldl (fun out ρ => do
    let policy ← out
    let raw := trimSpace (query (RetentionPolicy.field ρ))
    if raw = "" then pure policy
    else match atoi raw with
      | some n => pure (policy.set n ρ)
      | none => throw (.wholeNumber (RetentionPolicy.field ρ) raw)) (.ok saved)

structure RetentionPreviewEntry where
  backupID : String
  createdAt : Time
  reasons : List Reason
deriving DecidableEq, Repr

structure RetentionPreview where
  keeps : List RetentionPreviewEntry
  prunes : List RetentionPreviewEntry
deriving DecidableEq, Repr

inductive PreviewReply where
  | ok (out : RetentionPreview)
  | notFound
  | badRequest (err : PolicyErr)
  | serverError (err : Store.Err)
deriving DecidableEq, Repr

def previewEntries (decisions : List RetentionDecision) : List RetentionPreviewEntry :=
  decisions.map fun d => ⟨d.id, d.createdAt, d.reasons⟩

def sortPreview (entries : List RetentionPreviewEntry) : List RetentionPreviewEntry :=
  entries.insertionSort fun a b => ¬ newer ⟨b.backupID, b.createdAt⟩ ⟨a.backupID, a.createdAt⟩

def workloads (mine : List Backup) : List (SourceKind × String) :=
  mine.foldl (fun order b =>
    if (b.sourceKind, b.sourceID) ∈ order then order else order ++ [(b.sourceKind, b.sourceID)]) []

def previewLoop (targetID : String) (policy : RetentionPolicy) :
    List (SourceKind × String) → RetentionPreview → SchedM PreviewReply
  | [], out => .ret (.ok ⟨sortPreview out.keeps, sortPreview out.prunes⟩)
  | source :: rest, out =>
    .call (.listBackups (ofSource source.1 source.2 targetID)) fun
    | .error err => .ret (.serverError err)
    | .ok list =>
      let plan := evaluateRetention (list.map Backup.point) policy
      previewLoop targetID policy rest
        ⟨out.keeps ++ previewEntries plan.keeps, out.prunes ++ previewEntries plan.prunes⟩

def handleRetentionPreview (jobID : String) (query : String → String) : SchedM PreviewReply :=
  .call (.jobByID jobID) fun
  | .error err => if err = .notFound then .ret .notFound else .ret (.serverError err)
  | .ok job =>
    match retentionFromQuery query job.retention with
    | .error err => .ret (.badRequest err)
    | .ok policy =>
      match policy.validate with
      | .error err => .ret (.badRequest err)
      | .ok () =>
        .call (.listBackups { jobID := job.id }) fun
        | .error err => .ret (.serverError err)
        | .ok mine => previewLoop job.targetID policy (workloads mine) ⟨[], []⟩

@[simp] theorem mem_workloads {mine : List Backup} {source : SourceKind × String} :
    source ∈ workloads mine ↔ ∃ b ∈ mine, (b.sourceKind, b.sourceID) = source := by
  have hfold : ∀ order : List (SourceKind × String), source ∈ mine.foldl (fun order b =>
      if (b.sourceKind, b.sourceID) ∈ order then order
      else order ++ [(b.sourceKind, b.sourceID)]) order ↔
      source ∈ order ∨ ∃ b ∈ mine, (b.sourceKind, b.sourceID) = source := by
    induction mine with
    | nil => simp
    | cons b mine ih =>
      intro order
      rw [List.foldl_cons, ih, List.exists_mem_cons_iff]
      split
      · rename_i hmem
        constructor
        · exact fun h => h.imp_right .inr
        · rintro (h | rfl | h)
          · exact .inl h
          · exact .inl hmem
          · exact .inr h
      · rw [List.mem_append, List.mem_singleton, or_assoc, eq_comm]
  rw [workloads, hfold]
  simp

@[simp] theorem mem_sortPreview {entries : List RetentionPreviewEntry} {id : String} :
    id ∈ (sortPreview entries).map RetentionPreviewEntry.backupID ↔
      id ∈ entries.map RetentionPreviewEntry.backupID :=
  ((List.perm_insertionSort _ entries).map _).mem_iff

@[simp] theorem previewEntries_ids (ds : List RetentionDecision) :
    (previewEntries ds).map RetentionPreviewEntry.backupID = ds.map RetentionDecision.id := by
  rw [previewEntries, List.map_map]
  rfl

theorem run_previewLoop (targetID : String) (policy : RetentionPolicy)
    (sources : List (SourceKind × String)) (out : RetentionPreview) (w : World) :
    ∃ out', run World.alone (previewLoop targetID policy sources out) w = (.ok out', w) ∧
      ∀ id, id ∈ out'.prunes.map RetentionPreviewEntry.backupID ↔
        id ∈ out.prunes.map RetentionPreviewEntry.backupID ∨ ∃ source ∈ sources,
          id ∈ (evaluateRetention (w.points (ofSource source.1 source.2 targetID)) policy).prunes.map
            RetentionDecision.id := by
  induction sources generalizing out with
  | nil =>
    refine ⟨_, rfl, fun id => ?_⟩
    rw [mem_sortPreview]
    simp
  | cons source sources ih =>
    have hlist : World.alone (.listBackups (ofSource source.1 source.2 targetID)) w =
        (.ok (w.backups.listBackups (ofSource source.1 source.2 targetID)), w) := rfl
    rw [previewLoop, run_call, hlist]
    obtain ⟨out', hrun, hids⟩ := ih _
    refine ⟨out', hrun, fun id => ?_⟩
    rw [hids, List.map_append, List.mem_append, previewEntries_ids, List.exists_mem_cons_iff,
      or_assoc]
    rfl

/-- For an accepted policy the preview lists what the evaluation prunes, over the
sources the job has restore points for. -/
theorem run_handleRetentionPreview {w : World} {job : Job} {query : String → String}
    {policy : RetentionPolicy} (hjob : w.jobs.lookup job.id = some job)
    (hquery : retentionFromQuery query job.retention = .ok policy)
    (hvalid : policy.validate = .ok ()) :
    ∃ out, run World.alone (handleRetentionPreview job.id query) w = (.ok out, w) ∧
      ∀ id, id ∈ out.prunes.map RetentionPreviewEntry.backupID ↔
        ∃ b ∈ w.backups.rows, (job.id = "" ∨ job.id = b.jobID) ∧
          id ∈ (evaluateRetention (w.points (ofSource b.sourceKind b.sourceID job.targetID))
            policy).prunes.map RetentionDecision.id := by
  have hload : World.alone (.jobByID job.id) w = (.ok job, w) := by
    simp only [World.alone, World.exec, hjob]
    rfl
  have hlist : World.alone (.listBackups { jobID := job.id }) w =
      (.ok (w.backups.listBackups { jobID := job.id }), w) := rfl
  have hmine : ∀ b, b ∈ w.backups.listBackups { jobID := job.id } ↔
      b ∈ w.backups.rows ∧ (job.id = "" ∨ job.id = b.jobID) := by
    intro b
    rw [BackupTable.listBackups, BackupTable.newestFirst, (List.perm_insertionSort _ _).mem_iff,
      List.mem_filter]
    simp [BackupFilter.matches]
  unfold handleRetentionPreview
  rw [run_call, hload]
  dsimp only
  rw [hquery]
  dsimp only
  rw [hvalid]
  dsimp only
  rw [run_call, hlist]
  obtain ⟨out, hrun, hids⟩ := run_previewLoop job.targetID policy
    (workloads (w.backups.listBackups { jobID := job.id })) ⟨[], []⟩ w
  refine ⟨out, hrun, fun id => ?_⟩
  rw [hids, List.map_nil, or_iff_right List.not_mem_nil]
  constructor
  · rintro ⟨source, hsource, hid⟩
    obtain ⟨b, hb, rfl⟩ := mem_workloads.mp hsource
    exact ⟨b, ((hmine b).mp hb).1, ((hmine b).mp hb).2, hid⟩
  · rintro ⟨b, hb, hjob, hid⟩
    exact ⟨_, mem_workloads.mpr ⟨b, (hmine b).mpr ⟨hb, hjob⟩, rfl⟩, hid⟩

theorem exists_row_of_prunes {w : World} {f : BackupFilter} {policy : RetentionPolicy} {id : String}
    (h : id ∈ (evaluateRetention (w.points f) policy).prunes.map RetentionDecision.id) :
    ∃ b ∈ w.backups.rows, b.id = id ∧ f.matches b = true := by
  obtain ⟨d, hd, rfl⟩ := List.mem_map.mp h
  obtain ⟨b, hb, hf, hpoint⟩ := mem_points.mp (point_mem_of_prunes hd)
  exact ⟨b, hb, congrArg RetentionPoint.id hpoint, hf⟩

theorem source_of_matches {sourceKind : SourceKind} {sourceID targetID : String} {b : Backup}
    (hne : sourceID ≠ "") (h : (ofSource sourceKind sourceID targetID).matches b = true) :
    b.sourceKind = sourceKind ∧ b.sourceID = sourceID := by
  simp only [BackupFilter.matches, ofSource, decide_eq_true_iff] at h
  obtain ⟨hkind, hid, -⟩ := h
  refine ⟨?_, (hid.resolve_left hne).symm⟩
  rcases hkind with hkind | hkind
  · cases hkind
  · exact (Option.some.inj hkind).symm

@[grind =] theorem matches_own {b : Backup} {targetID : String} (h : b.targetID = targetID) :
    (ofSource b.sourceKind b.sourceID targetID).matches b = true := by
  simp [BackupFilter.matches, ofSource, h]

/-- Of one source of the job the preview lists what the evaluation of that source
prunes: no other source adds a restore point of this one. -/
theorem preview_of_source {w : World} {job : Job} {policy : RetentionPolicy}
    {ids : List String} {b₀ : Backup} (hb₀ : b₀ ∈ w.backups.rows) (hjob : b₀.jobID = job.id)
    (hids : ∀ id, id ∈ ids ↔ ∃ b ∈ w.backups.rows, (job.id = "" ∨ job.id = b.jobID) ∧
      id ∈ (evaluateRetention (w.points (ofSource b.sourceKind b.sourceID job.targetID))
        policy).prunes.map RetentionDecision.id) (id : String) :
    (id ∈ ids ∧ ∃ b ∈ w.backups.rows, b.id = id ∧
        (ofSource b₀.sourceKind b₀.sourceID job.targetID).matches b = true) ↔
      id ∈ (evaluateRetention (w.points (ofSource b₀.sourceKind b₀.sourceID job.targetID))
        policy).prunes.map RetentionDecision.id := by
  constructor
  · rintro ⟨hid, b, hb, rfl, hown⟩
    obtain ⟨c, hc, -, hpruned⟩ := (hids b.id).mp hid
    obtain ⟨b', hb', heq, hother⟩ := exists_row_of_prunes hpruned
    have hsame : b' = b := List.inj_on_of_nodup_map w.backups.nodup hb' hb heq
    rw [hsame] at hother
    obtain ⟨hkind, hsource⟩ := source_of_matches b₀.sourceID_ne hown
    obtain ⟨hkind', hsource'⟩ := source_of_matches c.sourceID_ne hother
    rw [← hkind, ← hsource, hkind', hsource']
    exact hpruned
  · intro hid
    exact ⟨(hids id).mpr ⟨b₀, hb₀, .inr hjob.symm, hid⟩, exists_row_of_prunes hid⟩

/-- Of an accepted policy a pass deletes what the evaluation prunes if some rule
retains something. -/
theorem pruned_of_pos {policy : RetentionPolicy} {points : List RetentionPoint}
    (hvalid : policy.validate = .ok ()) (hids : (points.map RetentionPoint.id).Nodup)
    (hpos : ∃ ρ, 0 < policy.keep ρ) :
    pruned policy points = (evaluateRetention points policy).prunes := by
  obtain ⟨ρ, hρ⟩ := hpos
  have hnot : ¬ ∀ ρ, policy.keep ρ ≤ 0 := fun h => absurd hρ (not_lt_of_ge (h ρ))
  unfold pruned
  split
  · rename_i hcond
    rw [RetentionPolicy.total_le_zero_iff hvalid, keeps_eq_nil_iff hids] at hcond
    have hnil : points = [] := by tauto
    rw [hnil]
    rfl
  · rfl

theorem pruned_of_none {policy : RetentionPolicy} (points : List RetentionPoint)
    (hvalid : policy.validate = .ok ()) (hnone : ∀ ρ, policy.keep ρ ≤ 0) :
    pruned policy points = [] :=
  if_pos (.inl ((RetentionPolicy.total_le_zero_iff hvalid).mpr hnone))

theorem prunes_of_none {policy : RetentionPolicy} {points : List RetentionPoint}
    (hids : (points.map RetentionPoint.id).Nodup) (hnone : ∀ ρ, policy.keep ρ ≤ 0)
    {p : RetentionPoint} (hp : p ∈ points) :
    p.id ∈ (evaluateRetention points policy).prunes.map RetentionDecision.id := by
  have hpruned : p ∈ (evaluateRetention points policy).prunes.map RetentionDecision.point := by
    refine (mem_prunes hids).mpr ⟨hp, fun hpick => ?_⟩
    obtain ⟨ρ, hρ⟩ := (mem_join _).mp hpick
    exact not_mem_rule (hnone ρ) hρ
  obtain ⟨d, hd, rfl⟩ := List.mem_map.mp hpruned
  exact List.mem_map.mpr ⟨d, hd, rfl⟩

/-- The restore points of one source that the preview reports as pruned are those that
a pass under that policy deletes, exactly when the policy has a positive count. -/
theorem preview_truthful_iff {w : World} {job : Job} {query : String → String}
    {policy : RetentionPolicy} {b₀ : Backup} (hjob : w.jobs.lookup job.id = some job)
    (hquery : retentionFromQuery query job.retention = .ok policy)
    (hvalid : policy.validate = .ok ()) (hb₀ : b₀ ∈ w.backups.rows) (hmine : b₀.jobID = job.id)
    (hon : b₀.targetID = job.targetID) :
    ∃ out, run World.alone (handleRetentionPreview job.id query) w = (.ok out, w) ∧
      ((∀ id, (id ∈ out.prunes.map RetentionPreviewEntry.backupID ∧
            ∃ b ∈ w.backups.rows, b.id = id ∧
              (ofSource b₀.sourceKind b₀.sourceID job.targetID).matches b = true) ↔
          id ∈ w.backups.rows.map Backup.id ∧
            id ∉ (run World.alone (applyRetention job.targetID policy b₀.sourceKind b₀.sourceID)
              w).2.backups.rows.map Backup.id) ↔
        ∃ ρ, 0 < policy.keep ρ) := by
  obtain ⟨out, hrun, hids⟩ := run_handleRetentionPreview hjob hquery hvalid
  refine ⟨out, hrun, ?_⟩
  have hpoints := points_nodup w (ofSource b₀.sourceKind b₀.sourceID job.targetID)
  simp only [preview_of_source hb₀ hmine hids, mem_ids_applyRetention]
  constructor
  · intro htrue
    by_contra hpos
    have hnone : ∀ ρ, policy.keep ρ ≤ 0 := fun ρ => not_lt.mp fun h => hpos ⟨ρ, h⟩
    have hlisted := prunes_of_none hpoints hnone (mem_points.mpr ⟨b₀, hb₀, matches_own hon, rfl⟩)
    have hdeleted := ((htrue _).mp hlisted).2
    rw [pruned_of_none _ hvalid hnone] at hdeleted
    exact hdeleted ⟨List.mem_map.mpr ⟨b₀, hb₀, rfl⟩, List.not_mem_nil⟩
  · intro hpos id
    rw [pruned_of_pos hvalid hpoints hpos]
    constructor
    · intro hid
      obtain ⟨b, hb, rfl, -⟩ := exists_row_of_prunes hid
      exact ⟨List.mem_map.mpr ⟨b, hb, rfl⟩, fun h => h.2 hid⟩
    · rintro ⟨hrow, hgone⟩
      by_contra hid
      exact hgone ⟨hrow, hid⟩

def previewJob (retention : RetentionPolicy) : Job where
  id := "job"
  name := "nightly"
  kind := .vm
  targetID := "nas"
  retention := retention

def previewBackup (id : String) (createdAt : Time) : Backup where
  id := id
  jobID := "job"
  runID := "run"
  sourceKind := .vm
  sourceID := "host/101"
  sourceName := "web"
  targetID := "nas"
  createdAt := createdAt
  sizeBytes := 0
  uploadedBytes := 0
  kind := .full
  parentID := ""
  disks := []
  sourceID_ne := by decide

def previewWorld (retention : RetentionPolicy) : World where
  targets _ := ⟨∅, ∅, ∅⟩
  backups := ⟨[previewBackup "new" 2, previewBackup "old" 1], by decide⟩
  jobs := AList.singleton "job" (previewJob retention)
  targetActive _ := 0

/-- Under a candidate "keep last 1" the preview is right about both. -/
theorem preview_truthful_keep_last :
    ∃ out, run World.alone (handleRetentionPreview "job" fun p => if p = "keepLast" then " 1" else "")
        (previewWorld ⟨0, 0, 0, 0, 0⟩) = (.ok out, previewWorld ⟨0, 0, 0, 0, 0⟩) ∧
      ∀ id, (id ∈ out.prunes.map RetentionPreviewEntry.backupID ∧
          ∃ b ∈ (previewWorld ⟨0, 0, 0, 0, 0⟩).backups.rows, b.id = id ∧
            (ofSource .vm "host/101" "nas").matches b = true) ↔
        id ∈ (previewWorld ⟨0, 0, 0, 0, 0⟩).backups.rows.map Backup.id ∧
          id ∉ (run World.alone (applyRetention "nas" ⟨1, 0, 0, 0, 0⟩ .vm "host/101")
            (previewWorld ⟨0, 0, 0, 0, 0⟩)).2.backups.rows.map Backup.id := by
  obtain ⟨out, hrun, htrue⟩ := @preview_truthful_iff (previewWorld ⟨0, 0, 0, 0, 0⟩)
    (previewJob ⟨0, 0, 0, 0, 0⟩) (fun p => if p = "keepLast" then " 1" else "") ⟨1, 0, 0, 0, 0⟩
    (previewBackup "new" 2) rfl (by decide) (by decide) List.mem_cons_self rfl rfl
  exact ⟨out, hrun, htrue.mpr ⟨.last, by decide⟩⟩

/-- Under a policy of zeros the preview reports both as pruned, and a pass leaves both. -/
theorem preview_untrue_of_zeros :
    ∃ out, run World.alone (handleRetentionPreview "job" fun _ => "")
        (previewWorld ⟨0, 0, 0, 0, 0⟩) = (.ok out, previewWorld ⟨0, 0, 0, 0, 0⟩) ∧
      ¬ ∀ id, (id ∈ out.prunes.map RetentionPreviewEntry.backupID ∧
          ∃ b ∈ (previewWorld ⟨0, 0, 0, 0, 0⟩).backups.rows, b.id = id ∧
            (ofSource .vm "host/101" "nas").matches b = true) ↔
        id ∈ (previewWorld ⟨0, 0, 0, 0, 0⟩).backups.rows.map Backup.id ∧
          id ∉ (run World.alone (applyRetention "nas" ⟨0, 0, 0, 0, 0⟩ .vm "host/101")
            (previewWorld ⟨0, 0, 0, 0, 0⟩)).2.backups.rows.map Backup.id := by
  refine ⟨⟨[], [⟨"new", 2, []⟩, ⟨"old", 1, []⟩]⟩, rfl, fun htrue => ?_⟩
  have hlisted := (htrue "old").mp
    ⟨by decide, previewBackup "old" 1, by simp [previewWorld], rfl, by decide⟩
  exact hlisted.2 (by decide)

end ProxBack.Api
